import TraceLoom.Proofs.Instrument.Weaving
import TraceLoom.Proofs.Script.NormalNames

/-!
Instrumentation only adds.  Without the two modules at its start and the statements that were put
between those of the program, the instrumented program is the program, but for an empty alternate
wherever there was none.
-/

namespace TraceLoom

open Script

/-! ## Changing the statement lists of a program -/

namespace Script

/-- What is to become of statement lists: which statements go, and whether a test without an
alternate gets an empty one. -/
structure Revision where
  drops : Stmt → Bool
  fillsAlternate : Bool

variable (r : Revision)

mutual

def Expr.revise : Expr → Expr
  | .array pos items => .array pos (Expr.reviseList items)
  | .object pos entries => .object pos (Expr.reviseEntries entries)
  | .function pos n params body => .function pos n params (Stmt.reviseList body)
  | .member pos object property => .member pos object.revise property
  | .index pos object index => .index pos object.revise index.revise
  | .call pos callee args => .call pos callee.revise (Expr.reviseList args)
  | .unary pos op operand => .unary pos op operand.revise
  | .binary pos op left right => .binary pos op left.revise right.revise
  | .assign pos op target value => .assign pos op target.revise value.revise
  | .update pos op isPrefix target => .update pos op isPrefix target.revise
  | .number pos x => .number pos x
  | .string pos s => .string pos s
  | .boolean pos b => .boolean pos b
  | .null pos => .null pos
  | .name pos n => .name pos n
termination_by structural e => e

def Expr.reviseList : List Expr → List Expr
  | [] => []
  | e :: es => e.revise :: Expr.reviseList es
termination_by structural es => es

def Expr.reviseEntries : List (String × Expr) → List (String × Expr)
  | [] => []
  | (key, e) :: es => (key, e.revise) :: Expr.reviseEntries es
termination_by structural es => es

def Stmt.revise : Stmt → Stmt
  | .declare pos kind ds => .declare pos kind (Stmt.reviseDeclarators ds)
  | .function pos n params body => .function pos n params (Stmt.reviseList body)
  | .ifElse pos test consequent none =>
    .ifElse pos test.revise (Stmt.reviseList consequent) (if r.fillsAlternate then some [] else none)
  | .ifElse pos test consequent (some alternate) =>
    .ifElse pos test.revise (Stmt.reviseList consequent) (some (Stmt.reviseList alternate))
  | .whileDo pos test body => .whileDo pos test.revise (Stmt.reviseList body)
  | .labeled pos label body => .labeled pos label (Stmt.reviseList body)
  | .breakTo pos label => .breakTo pos label
  | .returnWith pos none => .returnWith pos none
  | .returnWith pos (some e) => .returnWith pos (some e.revise)
  | .block pos body => .block pos (Stmt.reviseList body)
  | .expr pos e => .expr pos e.revise
termination_by structural s => s

def Stmt.reviseDeclarators : List (Pattern × Option Expr) → List (Pattern × Option Expr)
  | [] => []
  | (target, none) :: ds => (target, none) :: Stmt.reviseDeclarators ds
  | (target, some e) :: ds => (target, some e.revise) :: Stmt.reviseDeclarators ds
termination_by structural ds => ds

/-- The statements that stay, each with its own statement lists changed in the same way. -/
def Stmt.reviseList : List Stmt → List Stmt
  | [] => []
  | s :: ss => if r.drops s then Stmt.reviseList ss else s.revise :: Stmt.reviseList ss
termination_by structural ss => ss

end

variable {r} {s : Stmt} {ss ts : List Stmt}

theorem reviseList_cons_of_drops (h : r.drops s = true) :
    Stmt.reviseList r (s :: ss) = Stmt.reviseList r ss := by
  rw [Stmt.reviseList, if_pos h]

theorem reviseList_cons_of_not_drops (h : r.drops s = false) :
    Stmt.reviseList r (s :: ss) = s.revise r :: Stmt.reviseList r ss := by
  rw [Stmt.reviseList, h, if_neg Bool.false_ne_true]

theorem reviseList_append :
    Stmt.reviseList r (ss ++ ts) = Stmt.reviseList r ss ++ Stmt.reviseList r ts := by
  induction ss with
  | nil => rfl
  | cons s ss ih =>
      rw [List.cons_append, Stmt.reviseList, Stmt.reviseList, ih]
      split <;> rfl

end Script

namespace Instrument

/-! ## Additions -/

/-- `$test0`, `$test1` and so on: the names of tests. -/
def isTestName (n : String) : Bool :=
  match n.toList with
  | '$' :: 't' :: 'e' :: 's' :: 't' :: digits => !digits.isEmpty && digits.all Char.isDigit
  | _ => false

/-- Whether a declarator binds a test, or takes a closure record from the recorder. -/
def isAddedDeclarator : Pattern → Bool
  | .name n => isTestName n
  | .array names => names.head? == some closureParam

/-- The statements that instrumentation puts between those of a program: calls that stand alone,
and declarations of tests and of closure records. -/
def isAddition : Stmt → Bool
  | .expr _ e => e.isCall
  | .declare _ _ ds => ds.any fun d => isAddedDeclarator d.1
  | _ => false

/-- A program without what was put between its statements. -/
def withoutAdditions : Revision :=
  ⟨isAddition, false⟩

/-- A program in which every test has an alternate. -/
def withAlternates : Revision :=
  ⟨fun _ => false, true⟩

theorem toString_ne_empty (i : Nat) : (toString i).toList ≠ [] := by
  have h : (toString i).toList = Nat.toDigits 10 i := Nat.toList_repr
  rw [h]
  exact Nat.toDigits_ne_nil

theorem isTestName_of_isTest {n : String} (h : IsTest n) : isTestName n = true := by
  obtain ⟨i, rfl⟩ := h
  have hlist : ("$test" ++ toString i).toList = '$' :: 't' :: 'e' :: 's' :: 't' :: (toString i).toList := by
    simp
  simp only [isTestName, hlist, Bool.and_eq_true, Bool.not_eq_true', List.isEmpty_eq_false_iff,
    List.all_eq_true]
  exact ⟨toString_ne_empty i, fun c => isDigit_of_mem_toString⟩

theorem head?_of_isTestName {n : String} (h : isTestName n = true) :
    ∃ digits, n.toList = '$' :: 't' :: 'e' :: 's' :: 't' :: digits := by
  unfold isTestName at h
  split at h
  · exact ⟨_, by assumption⟩
  · cases h

/-- In a normal program nothing has the name of a test. -/
theorem covers_not_isTestName : Covers fun n => isTestName n = false where
  plain n hn := by
    rw [← Bool.not_eq_true]
    intro h
    obtain ⟨digits, hlist⟩ := head?_of_isTestName h
    rw [NormalForm.isReserved, String.startsWith_string_eq_false_iff] at hn
    exact hn ⟨_, hlist.symm⟩
  result i := by
    rw [← Bool.not_eq_true]
    intro h
    obtain ⟨digits, hlist⟩ := head?_of_isTestName h
    rw [String.toList_append] at hlist
    -- the number of a result would start with a letter
    have htail : (toString i).toList = 'e' :: 's' :: 't' :: digits :=
      (List.cons.inj (List.cons.inj hlist).2).2
    have hmem : 'e' ∈ (toString i).toList := htail ▸ List.mem_cons_self
    cases isDigit_of_mem_toString hmem
  function i := by
    rw [← Bool.not_eq_true]
    intro h
    obtain ⟨digits, hlist⟩ := head?_of_isTestName h
    rw [String.toList_append] at hlist
    cases (List.cons.inj (List.cons.inj hlist).2).1

end Instrument

/-! ## What is lowered stays as it is -/

namespace Lower

variable {l : Lower} {ν ν' : Names} (r : Revision)

mutual

/-- An expression that can be lowered has no function in it. -/
theorem revise_of_expr {ν ν' : Names} {e' : Expr} : ∀ e : Expr,
    (l.expr e).run ν = .ok (e', ν') → e.revise r = e := by
  intro e h
  cases e with
  | name | number | string | boolean => rfl
  | null | function | call | assign | update => exact absurd h run_throw_ne_ok
  | array pos items =>
      obtain ⟨_, _, hitems, -⟩ := run_bind_eq_ok_iff.mp h
      rw [Expr.revise, reviseList_of_exprs items hitems]
  | object pos entries =>
      obtain ⟨_, _, hentries, -⟩ := run_bind_eq_ok_iff.mp h
      rw [Expr.revise, reviseEntries_of_fields entries hentries]
  | member pos object property =>
      obtain ⟨_, _, hobject, -⟩ := run_bind_eq_ok_iff.mp h
      rw [Expr.revise, revise_of_expr object hobject]
  | unary pos op operand =>
      obtain ⟨_, _, hoperand, -⟩ := run_bind_eq_ok_iff.mp h
      rw [Expr.revise, revise_of_expr operand hoperand]
  | index pos object index =>
      obtain ⟨_, _, hobject, h⟩ := run_bind_eq_ok_iff.mp h
      obtain ⟨_, _, hindex, -⟩ := run_bind_eq_ok_iff.mp h
      rw [Expr.revise, revise_of_expr object hobject, revise_of_expr index hindex]
  | binary pos op left right =>
      obtain ⟨_, _, hleft, h⟩ := run_bind_eq_ok_iff.mp h
      obtain ⟨_, _, hright, -⟩ := run_bind_eq_ok_iff.mp h
      rw [Expr.revise, revise_of_expr left hleft, revise_of_expr right hright]
termination_by structural e => e

theorem reviseList_of_exprs {ν ν' : Names} {es' : List Expr} : ∀ es : List Expr,
    (l.exprs es).run ν = .ok (es', ν') → Expr.reviseList r es = es := by
  intro es h
  cases es with
  | nil => rfl
  | cons e es =>
      obtain ⟨_, _, he, h⟩ := run_bind_eq_ok_iff.mp h
      obtain ⟨_, _, hes, -⟩ := run_bind_eq_ok_iff.mp h
      rw [Expr.reviseList, revise_of_expr e he, reviseList_of_exprs es hes]
termination_by structural es => es

theorem reviseEntries_of_fields {ν ν' : Names} {es' : List (String × Expr)} :
    ∀ es : List (String × Expr),
      (l.fields es).run ν = .ok (es', ν') → Expr.reviseEntries r es = es := by
  intro es h
  cases es with
  | nil => rfl
  | cons entry es =>
      obtain ⟨key, e⟩ := entry
      obtain ⟨_, _, he, h⟩ := run_bind_eq_ok_iff.mp h
      obtain ⟨_, _, hes, -⟩ := run_bind_eq_ok_iff.mp h
      rw [Expr.reviseEntries, revise_of_expr e he, reviseEntries_of_fields es hes]
termination_by structural es => es

end

theorem revise_of_callee {e e' : Expr} (h : (l.callee e).run ν = .ok (e', ν')) :
    e.revise r = e := by
  unfold callee at h
  split at h
  · rfl
  · exact absurd h run_throw_ne_ok
  · exact absurd h run_throw_ne_ok
  · rename_i object property _ _
    obtain ⟨_, _, hobject, -⟩ := run_bind_eq_ok_iff.mp h
    rw [Expr.revise, revise_of_expr r object hobject]
  · exact absurd h run_throw_ne_ok

theorem revise_of_target {e e' : Expr} (h : (l.target e).run ν = .ok (e', ν')) :
    e.revise r = e := by
  unfold target at h
  split at h
  · rfl
  · rename_i object property
    split at h
    · exact absurd h run_throw_ne_ok
    · obtain ⟨_, _, hobject, -⟩ := run_bind_eq_ok_iff.mp h
      rw [Expr.revise, revise_of_expr r object hobject]
  · rename_i object index
    split at h
    · exact absurd h run_throw_ne_ok
    · obtain ⟨_, _, hget, h⟩ := run_bind_eq_ok_iff.mp h
      split at h
      · obtain ⟨_, _, hrefuse, -⟩ := run_bind_eq_ok_iff.mp h
        exact absurd hrefuse run_throw_ne_ok
      · obtain ⟨_, _, hobject, h⟩ := run_bind_eq_ok_iff.mp h
        obtain ⟨_, _, hindex, -⟩ := run_bind_eq_ok_iff.mp h
        rw [Expr.revise, revise_of_expr r object hobject, revise_of_expr r index hindex]
  · exact absurd h run_throw_ne_ok

end Lower

namespace Instrument

variable {l : Lower} {ν ν' : Names} {place : Place}

theorem revise_of_wovenCall {name : String} {callee : Expr} {args out : List _} {kept : Stmt}
    (r : Revision) (h : WovenCall l name callee args kept ν out ν') :
    callee.revise r = callee ∧ Expr.reviseList r args = args := by
  cases h with
  | require hkind =>
      obtain ⟨⟨_, rfl⟩, _, rfl⟩ := classify_require hkind
      exact ⟨rfl, rfl⟩
  | console hkind hargs =>
      obtain ⟨_, _, rfl⟩ := classify_console hkind
      exact ⟨rfl, Lower.reviseList_of_exprs r args hargs⟩
  | method hkind hobject hargs =>
      rename_i object _ _ _ _
      obtain ⟨_, rfl⟩ := classify_method hkind
      rw [Expr.revise, Lower.revise_of_expr r object hobject]
      exact ⟨rfl, Lower.reviseList_of_exprs r args hargs⟩
  | function hkind hcallee hargs =>
      rw [Lower.revise_of_callee r hcallee]
      exact ⟨rfl, Lower.reviseList_of_exprs r args hargs⟩

theorem revise_of_wovenExpr {e : Expr} {out : List Stmt} {kept : Stmt}
    (r : Revision) (h : WovenExpr l kept ν e out ν') : e.revise r = e ∧ e.isCall = false := by
  cases h with
  | assign hvalue htarget =>
      rename_i value _ _
      rw [Expr.revise, Lower.revise_of_target r htarget, Lower.revise_of_expr r value hvalue]
      exact ⟨rfl, rfl⟩
  | update => exact ⟨rfl, rfl⟩
  | pure hexpr =>
      refine ⟨Lower.revise_of_expr r e hexpr, ?_⟩
      cases e with
      | call => exact absurd hexpr run_throw_ne_ok
      | _ => rfl

/-! ## Woven statements without their additions -/

/-- The statements that were added go. -/
theorem reviseList_additions_append {ss ts : List Stmt} (h : ∀ s ∈ ss, isAddition s = true) :
    Stmt.reviseList withoutAdditions (ss ++ ts) = Stmt.reviseList withoutAdditions ts := by
  induction ss with
  | nil => rfl
  | cons s ss ih =>
      obtain ⟨hs, hss⟩ := List.forall_mem_cons.mp h
      rw [List.cons_append, reviseList_cons_of_drops hs, ih hss]

/-- A statement of the program stays, without what was added in it and behind it. -/
theorem reviseList_kept {s : Stmt} {ss : List Stmt} (hs : isAddition s = false)
    (hss : ∀ t ∈ ss, isAddition t = true) :
    Stmt.reviseList withoutAdditions (s :: ss) = [s.revise withoutAdditions] := by
  rw [reviseList_cons_of_not_drops hs, ← List.append_nil ss, reviseList_additions_append hss,
    Stmt.reviseList]

@[simp] theorem isAddition_traceCall (operation : String) (args : List Expr) :
    isAddition (traceCall l operation args) = true :=
  rfl

@[simp] theorem isAddition_traceLet (name : String) (value : Expr) :
    isAddition (traceLet l name value) = true :=
  rfl

@[simp] theorem isAddition_exitBlock : isAddition (exitBlock l) = true :=
  rfl

theorem isAddition_of_mem_prologue {params : List String} {s : Stmt} (h : s ∈ prologue l params) :
    isAddition s = true := by
  rcases List.mem_cons.mp h with rfl | h
  · simp [isAddition, isAddedDeclarator]
  · obtain ⟨⟨param, argument⟩, -, rfl⟩ := List.mem_map.mp h
    rfl

theorem isAddition_letNamed {name : String} {value : Expr} (h : IsTest name) :
    isAddition (.letNamed name value) = true := by
  simp [isAddition, Stmt.letNamed, isAddedDeclarator, isTestName_of_isTest h]

/-- A name that a normal program may declare. -/
abbrev NoTest (n : String) : Prop :=
  isTestName n = false

theorem isAddition_declare {pos : Position} {kind : DeclKind} {name : String}
    {value value' : Option Expr}
    (h : NamesFit NoTest (.declare pos kind [(.name name, value)])) :
    isAddition (.declare pos kind [(.name name, value')]) = false := by
  have hname : isTestName name = false := h name (by simp [declared, Pattern.names])
  simp [isAddition, isAddedDeclarator, hname]

variable (l) in
/-- A list of statements comes back from its weaving. -/
def Restored (body : List Stmt) : Prop :=
  ∀ {place : Place} {ν ν' : Names} {out : List Stmt}, Stmt.EverywhereIn (NamesFit NoTest) body →
    Weaves (stmts l place body) ν out ν' →
    Stmt.reviseList withoutAdditions out = Stmt.reviseList withAlternates body

theorem revise_of_wovenBlock {body out : List Stmt} (hbody : Restored l body)
    (hnames : Stmt.EverywhereIn (NamesFit NoTest) body) (h : WovenBlock l place body ν out ν') :
    Stmt.reviseList withoutAdditions out = Stmt.reviseList withAlternates body := by
  obtain ⟨-, -, hwoven⟩ := h
  exact hbody hnames hwoven

theorem revise_of_wovenFunction {params : List String} {body out : List Stmt}
    {self : Option (String × String)} {closure : Expr} (hbody : Restored l body)
    (hnames : Stmt.EverywhereIn (NamesFit NoTest) body)
    (h : WovenFunction l params body ν self out closure ν') :
    Stmt.reviseList withoutAdditions out = Stmt.reviseList withAlternates body := by
  have hrestored : ∀ {inner inner' : Names} {woven : List Stmt},
      Weaves (stmts l .functionBody body) inner woven inner' →
      Stmt.reviseList withoutAdditions (prologue l params ++ woven ++ [exitBlock l]) =
        Stmt.reviseList withAlternates body := by
    intro inner inner' woven hwoven
    rw [List.append_assoc, reviseList_additions_append fun s => isAddition_of_mem_prologue,
      reviseList_append, hbody hnames hwoven]
    exact List.append_nil _
  cases h with
  | anonymous _ hwoven | named _ _ hwoven =>
      obtain ⟨-, -, hwoven⟩ := hwoven
      exact hrestored hwoven

/-- Around a declaration whose value is a call stand calls of the recorder only. -/
theorem reviseList_of_wovenCall {name : String} {callee : Expr} {args : List Expr} {kept : Stmt}
    {out : List Stmt} (hkept : isAddition kept = false)
    (h : WovenCall l name callee args kept ν out ν') :
    Stmt.reviseList withoutAdditions out = [kept.revise withoutAdditions] := by
  have hbefore : ∀ before : List Stmt, (∀ s ∈ before, isAddition s = true) →
      Stmt.reviseList withoutAdditions (before ++ [kept]) = [kept.revise withoutAdditions] := by
    intro before hbefore
    rw [reviseList_additions_append hbefore, reviseList_kept hkept (by simp)]
  cases h with
  | require | method => exact hbefore [_] (by simp)
  | console =>
      refine hbefore (_ :: _) (List.forall_mem_cons.mpr ⟨rfl, ?_⟩)
      split <;> simp
  | function =>
      rw [reviseList_cons_of_drops rfl]
      exact reviseList_kept hkept (by simp)

/-- Before an expression that is a statement stands at most a call of the recorder. -/
theorem reviseList_of_wovenExpr {e : Expr} {kept : Stmt} {out : List Stmt}
    (hkept : isAddition kept = false) (h : WovenExpr l kept ν e out ν') :
    Stmt.reviseList withoutAdditions out = [kept.revise withoutAdditions] := by
  cases h with
  | assign | update => rw [reviseList_cons_of_drops rfl, reviseList_kept hkept (by simp)]
  | pure => rw [reviseList_kept hkept (by simp)]

mutual

/-- Without its additions a woven statement is the statement itself. -/
theorem reviseList_of_woven (s : Stmt) {place : Place} {ν ν' : Names} {out : List Stmt}
    (hnames : s.Everywhere (NamesFit NoTest)) (h : Woven l place ν s out ν') :
    Stmt.reviseList withoutAdditions out = [s.revise withAlternates] := by
  cases h with
  | letFunction hwoven =>
      rename_i pos fpos kind name self params body body' closure ν'
      rw [reviseList_cons_of_drops rfl, reviseList_kept (isAddition_declare hnames.1) (by simp)]
      simp only [Stmt.revise, Stmt.reviseDeclarators, Expr.revise,
        revise_of_wovenFunction (restored body) hnames.2 hwoven]
  | letCall hwoven =>
      rename_i pos cpos kind name callee args ν'
      rw [reviseList_of_wovenCall (isAddition_declare hnames) hwoven]
      simp only [Stmt.revise, Stmt.reviseDeclarators, Expr.revise,
        revise_of_wovenCall _ hwoven]
  | letValue hvalue =>
      rename_i pos kind name value traced ν'
      rw [reviseList_cons_of_drops rfl, reviseList_kept (isAddition_declare hnames.here) (by simp)]
      simp only [Stmt.revise, Stmt.reviseDeclarators, Lower.revise_of_expr _ value hvalue]
  | letNone =>
      rw [reviseList_cons_of_drops rfl, reviseList_kept (isAddition_declare hnames) (by simp)]
      rfl
  | function hwoven =>
      rename_i pos name params body body' closure
      rw [reviseList_cons_of_drops rfl, reviseList_kept rfl (by simp), Stmt.revise, Stmt.revise,
        revise_of_wovenFunction (restored body) hnames.2 hwoven]
  | ifThen htest hname hyes hjoin =>
      rename_i pos test traced consequent yes name ν₁ ν₂
      rw [reviseList_cons_of_drops (isAddition_letNamed hname), reviseList_kept rfl (by simp),
        Stmt.revise, Stmt.revise, reviseList_cons_of_drops rfl,
        reviseList_cons_of_drops rfl, Lower.revise_of_expr _ test htest,
        Lower.revise_of_expr _ test htest, revise_of_wovenBlock (restored consequent) hnames.2 hyes]
      rfl
  | ifElse htest hname hyes hno hjoin =>
      rename_i pos test traced consequent alternate yes no name ν₁ ν₂ ν₃
      rw [reviseList_cons_of_drops (isAddition_letNamed hname), reviseList_kept rfl (by simp),
        Stmt.revise, Stmt.revise, reviseList_cons_of_drops rfl,
        reviseList_cons_of_drops rfl, Lower.revise_of_expr _ test htest,
        Lower.revise_of_expr _ test htest,
        revise_of_wovenBlock (restored consequent) hnames.2.1 hyes,
        revise_of_wovenBlock (restored alternate) hnames.2.2 hno]
  | whileDo htest hbody =>
      rename_i pos test traced body body' ν₁
      rw [reviseList_cons_of_drops rfl, reviseList_kept rfl (by simp), Stmt.revise, Stmt.revise,
        reviseList_cons_of_drops rfl, Lower.revise_of_expr _ test htest,
        Lower.revise_of_expr _ test htest, revise_of_wovenBlock (restored body) hnames.2 hbody]
  | labeled hbody =>
      rename_i pos label body body'
      rw [reviseList_cons_of_drops rfl, reviseList_kept rfl (by simp), Stmt.revise, Stmt.revise,
        reviseList_append, revise_of_wovenBlock (restored body) hnames.2 hbody,
        reviseList_cons_of_drops rfl, Stmt.reviseList, List.append_nil]
  | block hbody =>
      rename_i pos body body'
      rw [reviseList_kept rfl (by simp), Stmt.revise, Stmt.revise,
        revise_of_wovenBlock (restored body) hnames.2 hbody]
  | breakTo | returnNone => rfl
  | returnSome _ hvalue =>
      rename_i pos value traced _
      rw [reviseList_cons_of_drops rfl, reviseList_kept rfl (by simp), Stmt.revise, Stmt.revise,
        Lower.revise_of_expr _ value hvalue, Lower.revise_of_expr _ value hvalue]
  | expr hwoven =>
      rename_i pos e
      have hkept : isAddition (.expr pos e) = false := (revise_of_wovenExpr withAlternates hwoven).2
      rw [reviseList_of_wovenExpr hkept hwoven]
      simp only [Stmt.revise, revise_of_wovenExpr _ hwoven]
termination_by sizeOf s

theorem restored (ss : List Stmt) : Restored l ss := by
  intro place ν ν' out hnames h
  cases ss with
  | nil =>
      obtain ⟨rfl, -⟩ := weaves_nil h
      rfl
  | cons s ss =>
      obtain ⟨front, rest, ν₁, hs, hss, rfl⟩ := weaves_cons h
      rw [reviseList_append, reviseList_of_woven s hnames.1 hs, restored ss hnames.2 hss]
      exact (reviseList_cons_of_not_drops rfl).symm
termination_by sizeOf ss

end

/-- Instrumentation only adds: behind its two modules, and without what was put between its
statements, an instrumented program is the program it was made from, in which every test has an
alternate. -/
theorem instrument_only_adds {options : InstrumentOptions} {primitives : Primitives}
    {source p q : Program} (hnormal : normalize source = .ok p)
    (h : instrument options primitives p = .ok q) :
    ∃ rest, q = requireModule options.expBinding options.expModule ::
        requireModule options.callbacksBinding options.callbacksModule :: rest ∧
      Stmt.reviseList withoutAdditions rest = Stmt.reviseList withAlternates p := by
  obtain ⟨out, ν', ⟨-, -, hwoven⟩, -, rfl⟩ := instrument_eq_ok h
  have hnames := namesFit_of_normalize covers_not_isTestName hnormal
  refine ⟨_, rfl, ?_⟩
  change Stmt.reviseList withoutAdditions (traceCall _ "newTrace" [] :: (out ++ [exitBlock _])) = _
  rw [reviseList_cons_of_drops rfl, reviseList_append, restored p hnames hwoven]
  exact List.append_nil _

/-- `function g(y) { return y; } function f(x) { if (x) { return g(x); } } f(1);` -/
def branching : Program :=
  [.function .none "g" ["y"] [.returnWith .none (some (.ident "y"))],
    .function .none "f" ["x"] [.ifElse .none (.ident "x")
      [.returnWith .none (some (.call .none (.ident "g") [.ident "x"]))] none],
    .ofExpr (.call .none (.ident "f") [.num 1.0])]

/-- Its calls are bound by declarations of their own. -/
def normalBranching : Program :=
  [.function .none "g" ["y"] [.returnWith .none (some (.ident "y"))],
    .function .none "f" ["x"] [.ifElse .none (.ident "x")
      [.letNamed "$t0" (.call .none (.ident "g") [.ident "x"]),
        .returnWith .none (some (.ident "$t0"))] none],
    .letNamed "$t1" (.call .none (.ident "f") [.num 1.0])]

theorem instrument_only_adds_branching : ∃ q,
    normalize branching = .ok normalBranching ∧
      instrument .default .default normalBranching = .ok q ∧
      ∃ rest, q = requireModule "exp" "containerless/exp" ::
          requireModule "cb" "containerless" :: rest ∧
        Stmt.reviseList withoutAdditions rest = Stmt.reviseList withAlternates normalBranching := by
  have hnormal : normalize branching = .ok normalBranching := by with_unfolding_all rfl
  refine ⟨_, hnormal, by with_unfolding_all rfl,
    @instrument_only_adds .default .default _ _ _ hnormal ?_⟩
  with_unfolding_all rfl

end Instrument

end TraceLoom
