import TraceLoom.Proofs.Script.NormalNames

/-!
The shape of normal programs.  Calls and functions stand where a declaration has its value,
assignments are plain and statements of their own, and every declaration binds one target.
Normalizing gives programs of this shape, and leaves those as they are that have it already.
-/

namespace TraceLoom.Script

open NormalForm

/-! ## Normal form -/

mutual

/-- There is no call, assignment, update or function in an expression. -/
def Expr.IsSimple : Expr → Prop
  | .array _ items => Expr.AreSimple items
  | .object _ entries => Expr.HasSimpleValues entries
  | .member _ base _ => base.IsSimple
  | .index _ base key => base.IsSimple ∧ key.IsSimple
  | .unary _ _ operand => operand.IsSimple
  | .binary _ _ left right => left.IsSimple ∧ right.IsSimple
  | .number .. | .string .. | .boolean .. | .null _ | .name .. => True
  | .function .. | .call .. | .assign .. | .update .. => False
termination_by structural e => e

def Expr.AreSimple : List Expr → Prop
  | [] => True
  | e :: es => e.IsSimple ∧ Expr.AreSimple es
termination_by structural es => es

def Expr.HasSimpleValues : List (String × Expr) → Prop
  | [] => True
  | (_, e) :: es => e.IsSimple ∧ Expr.HasSimpleValues es
termination_by structural es => es

end

/-- What a declaration may have as its value. -/
def Expr.IsBindable : Expr → Prop
  | .call _ callee args => callee.IsSimple ∧ Expr.AreSimple args
  | .function .. => True
  | e => e.IsSimple

/-- A statement is in normal form, apart from the statements in it. -/
def Stmt.IsNormal : Stmt → Prop
  | .declare _ _ [(_, none)] => True
  | .declare _ _ [(_, some e)] => e.IsBindable
  | .declare .. => False
  | .ifElse _ test _ _ | .whileDo _ test _ => test.IsSimple
  | .returnWith _ (some e) => e.IsSimple
  | .expr _ (.assign _ op target value) => op = .assign ∧ target.IsSimple ∧ value.IsSimple
  | .expr _ (.update _ _ _ target) => target.IsSimple
  | .expr _ e => e.IsSimple
  | .function .. | .labeled .. | .breakTo .. | .returnWith _ none | .block .. => True

/-- Every statement of a program is in normal form. -/
abbrev IsNormalIn (ss : List Stmt) : Prop :=
  Stmt.EverywhereIn Stmt.IsNormal ss

theorem Expr.IsSimple.isBindable {e : Expr} (h : e.IsSimple) : e.IsBindable := by
  cases e with
  | call | function => exact h.elim
  | _ => exact h

theorem Expr.IsSimple.isNormal {pos : Position} {e : Expr} (h : e.IsSimple) :
    Stmt.IsNormal (.expr pos e) := by
  cases e with
  | assign | update => exact h.elim
  | _ => exact h

/-! ## Normalizing -/

/-- What may be left of an expression in a place. -/
def NormalForm.Place.Leaves : Place → Expr → Prop
  | .bound, e => e.IsBindable ∧
      ∀ pos self params body, e = .function pos self params body → IsNormalIn body
  | _, e => e.IsSimple

namespace NormalForm.Place

variable {place : Place} {e : Expr}

theorem leaves_of_isSimple (place : Place) (h : e.IsSimple) : place.Leaves e := by
  cases place with
  | bound => exact ⟨h.isBindable, fun _ _ _ _ heq => by cases heq; exact h.elim⟩
  | free | guarded => exact h

theorem leaves_call {pos : Position} {callee : Expr} {args : List Expr} (hcallee : callee.IsSimple)
    (hargs : Expr.AreSimple args) : Place.bound.Leaves (.call pos callee args) :=
  ⟨⟨hcallee, hargs⟩, fun _ _ _ _ heq => by cases heq⟩

theorem Leaves.inner (h : place.inner.Leaves e) : e.IsSimple := by
  cases place <;> exact h

theorem Leaves.right {op : BinaryOp} (h : (place.right op).Leaves e) : e.IsSimple := by
  unfold Place.right at h
  split at h
  · exact h
  · exact h.inner

end NormalForm.Place

/-- The declarations in front of a statement are normal, and so is what is left of an expression. -/
def LiftsNormally (place : Place) (r : Lifted) : Prop :=
  IsNormalIn r.1 ∧ place.Leaves r.2

theorem normal_declare {pos : Position} {kind : DeclKind} {target : Pattern} {e : Expr}
    (h : Place.bound.Leaves e) : Stmt.Everywhere Stmt.IsNormal (.declare pos kind [(target, some e)]) :=
  everywhere_declare h.1 h.2

theorem yieldsNormal_placeCall {place : Place} {pos : Position} {front : List Stmt} {callee : Expr}
    {args : List Expr} (hfront : IsNormalIn front) (hcallee : callee.IsSimple)
    (hargs : Expr.AreSimple args) :
    Yields (placeCall place pos front (.call pos callee args)) (LiftsNormally place) := by
  have hcall : Place.bound.Leaves (.call pos callee args) := Place.leaves_call hcallee hargs
  cases place with
  | bound => exact .pure ⟨hfront, hcall⟩
  | free =>
      refine (Yields.trivial freshResult).bind fun name _ => .pure ⟨?_, trivial⟩
      exact everywhereIn_append.mpr ⟨hfront, everywhereIn_singleton.mpr (normal_declare hcall)⟩
  | guarded => exact .refuse

theorem isSimple_spellOut {pos : Position} {op : AssignOp} {target value : Expr}
    (htarget : target.IsSimple) (hvalue : value.IsSimple) :
    (spellOut pos op target value).IsSimple := by
  unfold spellOut
  split
  · exact ⟨htarget, hvalue⟩
  · exact hvalue

mutual

theorem yieldsNormal_lift (place : Place) : (e : Expr) → Yields (lift place e) (LiftsNormally place)
  | .call pos callee args => by
      have hparts : Yields (do
          let (front, callee) ← lift .free callee
          let (more, args) ← liftList .free args
          placeCall place pos (front ++ more) (.call pos callee args)) (LiftsNormally place) := by
        refine (yieldsNormal_lift .free callee).bind fun (front, callee) ⟨hfront, hcallee⟩ => ?_
        refine (yieldsNormal_liftList .free args).bind fun (more, args) ⟨hmore, hargs⟩ => ?_
        exact yieldsNormal_placeCall (everywhereIn_append.mpr ⟨hfront, hmore⟩) hcallee (hargs rfl)
      cases place with
      | guarded => exact .refuse
      | bound | free => exact hparts
  | .function pos name params body => by
      have hfunction : Yields (do
          params.forM (checkName pos)
          let body ← stmts body
          return ([], .function pos name params body)) (LiftsNormally .bound) := by
        refine (Yields.checkNames pos params).bind fun _ _ => ?_
        refine (yieldsNormal_stmts body).bind fun body hbody => .pure ⟨trivial, trivial, ?_⟩
        rintro _ _ _ _ ⟨⟩
        exact hbody
      have hdeclared (place : Place) : Yields (do
          let name ← functionName pos name
          params.forM (checkName pos)
          let body ← stmts body
          return ([.function pos name params body], .name pos name)) (LiftsNormally place) := by
        refine (Yields.trivial (functionName pos name)).bind fun name _ => ?_
        refine (Yields.checkNames pos params).bind fun _ _ => ?_
        refine (yieldsNormal_stmts body).bind fun body hbody => .pure ⟨?_, ?_⟩
        · exact everywhereIn_singleton.mpr ⟨trivial, hbody⟩
        · exact place.leaves_of_isSimple trivial
      cases place with
      | bound => exact hfunction
      | free | guarded => exact hdeclared _
  | .name pos n =>
      (Yields.checkName pos n).bind fun _ _ => .pure ⟨trivial, place.leaves_of_isSimple trivial⟩
  | .binary pos op left right => by
      refine (yieldsNormal_lift place.inner left).bind fun (front, left) ⟨hfront, hleft⟩ => ?_
      refine (yieldsNormal_lift (place.right op) right).bind fun (more, right) ⟨hmore, hright⟩ => ?_
      exact .pure ⟨everywhereIn_append.mpr ⟨hfront, hmore⟩,
        place.leaves_of_isSimple ⟨hleft.inner, hright.right⟩⟩
  | .unary pos op operand =>
      (yieldsNormal_lift place.inner operand).bind fun (front, operand) ⟨hfront, hoperand⟩ =>
        .pure ⟨hfront, place.leaves_of_isSimple (e := .unary pos op operand) hoperand.inner⟩
  | .member pos object property =>
      (yieldsNormal_lift place.inner object).bind fun (front, object) ⟨hfront, hobject⟩ =>
        .pure ⟨hfront, place.leaves_of_isSimple (e := .member pos object property) hobject.inner⟩
  | .index pos object index => by
      refine (yieldsNormal_lift place.inner object).bind fun (front, object) ⟨hfront, hobject⟩ => ?_
      refine (yieldsNormal_lift place.inner index).bind fun (more, index) ⟨hmore, hindex⟩ => ?_
      exact .pure ⟨everywhereIn_append.mpr ⟨hfront, hmore⟩,
        place.leaves_of_isSimple ⟨hobject.inner, hindex.inner⟩⟩
  | .array pos items => by
      refine (yieldsNormal_liftList place.inner items).bind fun (front, items) ⟨hfront, hitems⟩ => ?_
      refine .pure ⟨hfront, place.leaves_of_isSimple (e := .array pos items) (hitems ?_)⟩
      cases place <;> rfl
  | .object pos entries => by
      refine (yieldsNormal_liftEntries place.inner entries).bind
        fun (front, entries) ⟨hfront, hentries⟩ => ?_
      refine .pure ⟨hfront, place.leaves_of_isSimple (e := .object pos entries) (hentries ?_)⟩
      cases place <;> rfl
  | .assign .. => .refuse
  | .update .. => .refuse
  | .number .. | .string .. | .boolean .. | .null _ =>
      .pure ⟨trivial, place.leaves_of_isSimple trivial⟩

theorem yieldsNormal_liftList (place : Place) : (es : List Expr) →
    Yields (liftList place es) fun r =>
      IsNormalIn r.1 ∧ (place.inner = place → Expr.AreSimple r.2)
  | [] => .pure ⟨trivial, fun _ => trivial⟩
  | e :: es => by
      refine (yieldsNormal_lift place e).bind fun (front, e) ⟨hfront, he⟩ => ?_
      refine (yieldsNormal_liftList place es).bind fun (more, es) ⟨hmore, hes⟩ => ?_
      exact .pure ⟨everywhereIn_append.mpr ⟨hfront, hmore⟩,
        fun hplace => ⟨(hplace.symm ▸ he).inner, hes hplace⟩⟩

theorem yieldsNormal_liftEntries (place : Place) : (es : List (String × Expr)) →
    Yields (liftEntries place es) fun r =>
      IsNormalIn r.1 ∧ (place.inner = place → Expr.HasSimpleValues r.2)
  | [] => .pure ⟨trivial, fun _ => trivial⟩
  | (key, e) :: es => by
      refine (yieldsNormal_lift place e).bind fun (front, e) ⟨hfront, he⟩ => ?_
      refine (yieldsNormal_liftEntries place es).bind fun (more, es) ⟨hmore, hes⟩ => ?_
      exact .pure ⟨everywhereIn_append.mpr ⟨hfront, hmore⟩,
        fun hplace => ⟨(hplace.symm ▸ he).inner, hes hplace⟩⟩

theorem yieldsNormal_stmt : (s : Stmt) → Yields (stmt s) IsNormalIn
  | .declare pos kind ds => yieldsNormal_declarators pos kind ds
  | .function pos name params body => by
      refine (Yields.checkName pos name).bind fun _ _ => ?_
      refine (Yields.checkNames pos params).bind fun _ _ => ?_
      exact (yieldsNormal_stmts body).bind fun body hbody =>
        .pure (everywhereIn_singleton.mpr ⟨trivial, hbody⟩)
  | .ifElse pos test consequent none => by
      refine (yieldsNormal_lift .free test).bind fun (front, test) ⟨hfront, htest⟩ => ?_
      refine (yieldsNormal_stmts consequent).bind fun yes hyes => .pure ?_
      exact everywhereIn_append.mpr ⟨hfront, everywhereIn_singleton.mpr ⟨htest, hyes⟩⟩
  | .ifElse pos test consequent (some alternate) => by
      refine (yieldsNormal_lift .free test).bind fun (front, test) ⟨hfront, htest⟩ => ?_
      refine (yieldsNormal_stmts consequent).bind fun yes hyes => ?_
      refine (yieldsNormal_stmts alternate).bind fun no hno => .pure ?_
      exact everywhereIn_append.mpr ⟨hfront, everywhereIn_singleton.mpr ⟨htest, hyes, hno⟩⟩
  | .whileDo pos test body => by
      refine (yieldsNormal_lift (.guarded .callInLoopTest) test).bind
        fun (front, test) ⟨hfront, htest⟩ => ?_
      refine (yieldsNormal_stmts body).bind fun body hbody => .pure ?_
      exact everywhereIn_append.mpr ⟨hfront, everywhereIn_singleton.mpr ⟨htest, hbody⟩⟩
  | .labeled pos label body | .block pos body =>
      (yieldsNormal_stmts body).bind fun _ hbody =>
        .pure (everywhereIn_singleton.mpr ⟨trivial, hbody⟩)
  | .breakTo .. => .pure (everywhereIn_singleton.mpr trivial)
  | .returnWith _ none => .pure (everywhereIn_singleton.mpr trivial)
  | .returnWith pos (some value) =>
      (yieldsNormal_lift .free value).bind fun _ ⟨hfront, hvalue⟩ =>
        .pure (everywhereIn_append.mpr ⟨hfront, everywhereIn_singleton.mpr hvalue⟩)
  | .expr _ (.call pos callee args) => by
      refine (yieldsNormal_lift .free callee).bind fun (front, callee) ⟨hfront, hcallee⟩ => ?_
      refine (yieldsNormal_liftList .free args).bind fun (more, args) ⟨hmore, hargs⟩ => ?_
      refine (Yields.trivial freshResult).bind fun name _ => .pure ?_
      have hcall : Place.bound.Leaves (.call pos callee args) :=
        Place.leaves_call hcallee (hargs rfl)
      exact everywhereIn_append.mpr ⟨everywhereIn_append.mpr ⟨hfront, hmore⟩,
        everywhereIn_singleton.mpr (normal_declare hcall)⟩
  | .expr _ (.assign pos op target value) => by
      refine (yieldsNormal_lift (.guarded .callInAssignTarget) target).bind
        fun (front, target) ⟨hfront, htarget⟩ => ?_
      have hassign : Yields (do
          let (more, value) ← lift .free value
          return front ++ more ++ [.expr pos (.assign pos .assign target
            (spellOut pos op target value))]) IsNormalIn := by
        refine (yieldsNormal_lift .free value).bind fun (more, value) ⟨hmore, hvalue⟩ => .pure ?_
        refine everywhereIn_append.mpr ⟨everywhereIn_append.mpr ⟨hfront, hmore⟩, ?_⟩
        exact everywhereIn_singleton.mpr ⟨rfl, htarget, isSimple_spellOut htarget hvalue⟩
      dsimp only
      split
      · exact (Yields.trivial _).bind fun _ _ => hassign
      · exact hassign
  | .expr _ (.update pos op isPrefix target) =>
      (yieldsNormal_lift (.guarded .callInUpdateTarget) target).bind fun _ ⟨hfront, htarget⟩ =>
        .pure (everywhereIn_append.mpr ⟨hfront, everywhereIn_singleton.mpr htarget⟩)
  | .expr _ (.name ..) | .expr _ (.number ..) | .expr _ (.string ..) | .expr _ (.boolean ..)
  | .expr _ (.null _) | .expr _ (.array ..) | .expr _ (.object ..) | .expr _ (.function ..)
  | .expr _ (.member ..) | .expr _ (.index ..) | .expr _ (.unary ..) | .expr _ (.binary ..) =>
      (yieldsNormal_lift .free _).bind fun (_, e) ⟨hfront, he⟩ =>
        .pure (everywhereIn_append.mpr
          ⟨hfront, everywhereIn_singleton.mpr (Expr.IsSimple.isNormal (e := e) he)⟩)

theorem yieldsNormal_declarators (pos : Position) (kind : DeclKind) :
    (ds : List (Pattern × Option Expr)) → Yields (declarators pos kind ds) IsNormalIn
  | [] => .pure trivial
  | (target, none) :: ds =>
      (Yields.checkNames pos target.names).bind fun _ _ =>
        (yieldsNormal_declarators pos kind ds).bind fun _ hrest => .pure ⟨trivial, hrest⟩
  | (target, some e) :: ds => by
      refine (Yields.checkNames pos target.names).bind fun _ _ => ?_
      refine (yieldsNormal_lift .bound e).bind fun (front, e) ⟨hfront, he⟩ => ?_
      refine (yieldsNormal_declarators pos kind ds).bind fun rest hrest => .pure ?_
      exact everywhereIn_append.mpr ⟨hfront, normal_declare he, hrest⟩

theorem yieldsNormal_stmts : (ss : List Stmt) → Yields (stmts ss) IsNormalIn
  | [] => .pure trivial
  | s :: ss => (yieldsNormal_stmt s).bind fun _ hs => (yieldsNormal_stmts ss).bind fun _ hss =>
      .pure (everywhereIn_append.mpr ⟨hs, hss⟩)

end

/-- Normalizing gives normal programs. -/
theorem isNormalIn_of_normalize {source p : Program} (h : normalize source = .ok p) :
    IsNormalIn p := by
  obtain ⟨ν, hrun⟩ := run'_eq_ok_iff.mp h
  exact yieldsNormal_stmts source _ _ _ hrun

/-! ## Programs that are normal already -/

/-- A step goes through, gives a certain result and makes no name. -/
def Passes {α : Type} (m : Lifting α) (a : α) : Prop :=
  ∀ ν, m.run ν = .ok (a, ν)

namespace Passes

variable {α β : Type} {m : Lifting α} {a : α} {b : β}

theorem pure (a : α) : Passes (pure a) a :=
  fun _ => rfl

theorem bind {f : α → Lifting β} (h : Passes m a) (hf : Passes (f a) b) : Passes (m >>= f) b :=
  fun ν => run_bind_eq_ok_iff.mpr ⟨a, ν, h ν, hf ν⟩

theorem checkName {pos : Position} {n : String} (hn : isReserved n = false) :
    Passes (checkName pos n) ⟨⟩ := by
  rw [NormalForm.checkName, hn]
  exact .pure _

theorem checkNames {pos : Position} {ns : List String} (hns : ∀ n ∈ ns, isReserved n = false) :
    Passes (ns.forM (NormalForm.checkName pos)) ⟨⟩ := by
  induction ns with
  | nil => exact .pure _
  | cons n ns ih =>
      obtain ⟨hn, hns⟩ := List.forall_mem_cons.mp hns
      exact (checkName hn).bind (ih hns)

end Passes

/-- Names that are not kept for generated ones. -/
abbrev AreFree (names : List String) : Prop :=
  ∀ n ∈ names, isReserved n = false

mutual

theorem passes_lift (place : Place) : (e : Expr) → e.IsSimple → AreFree (e.freeNames Option.toList) →
    Passes (lift place e) ([], e)
  | .name _ n, _, hfree =>
      (Passes.checkName (hfree n (List.mem_singleton_self n))).bind (.pure _)
  | .number .., _, _ | .string .., _, _ | .boolean .., _, _ | .null _, _, _ => .pure _
  | .array _ items, hitems, hfree => (passes_liftList place.inner items hitems hfree).bind (.pure _)
  | .object _ entries, hentries, hfree =>
      (passes_liftEntries place.inner entries hentries hfree).bind (.pure _)
  | .member _ object _, hobject, hfree =>
      (passes_lift place.inner object hobject hfree).bind (.pure _)
  | .unary _ _ operand, hoperand, hfree =>
      (passes_lift place.inner operand hoperand hfree).bind (.pure _)
  | .index _ object index, ⟨hobject, hindex⟩, hfree =>
      have ⟨hfreeObject, hfreeIndex⟩ := List.forall_mem_append.mp hfree
      (passes_lift place.inner object hobject hfreeObject).bind
        ((passes_lift place.inner index hindex hfreeIndex).bind (.pure _))
  | .binary _ op left right, ⟨hleft, hright⟩, hfree =>
      have ⟨hfreeLeft, hfreeRight⟩ := List.forall_mem_append.mp hfree
      (passes_lift place.inner left hleft hfreeLeft).bind
        ((passes_lift (place.right op) right hright hfreeRight).bind (.pure _))

theorem passes_liftList (place : Place) : (es : List Expr) → Expr.AreSimple es →
    AreFree (Expr.freeNamesList Option.toList es) → Passes (liftList place es) ([], es)
  | [], _, _ => .pure _
  | e :: es, ⟨he, hes⟩, hfree =>
      have ⟨hfreeHere, hfreeRest⟩ := List.forall_mem_append.mp hfree
      (passes_lift place e he hfreeHere).bind
        ((passes_liftList place es hes hfreeRest).bind (.pure _))

theorem passes_liftEntries (place : Place) : (es : List (String × Expr)) → Expr.HasSimpleValues es →
    AreFree (Expr.freeNamesEntries Option.toList es) → Passes (liftEntries place es) ([], es)
  | [], _, _ => .pure _
  | (_, e) :: es, ⟨he, hes⟩, hfree =>
      have ⟨hfreeHere, hfreeRest⟩ := List.forall_mem_append.mp hfree
      (passes_lift place e he hfreeHere).bind
        ((passes_liftEntries place es hes hfreeRest).bind (.pure _))

end

/-- A statement in normal form without reserved names, apart from the statements in it. -/
structure IsFinished (s : Stmt) : Prop where
  normal : s.IsNormal
  free : NamesFit (fun n => isReserved n = false) s

namespace IsFinished

variable {s : Stmt}

theorem declared (h : IsFinished s) : AreFree (Instrument.declared s) :=
  fun n hn => h.free n (List.mem_append_left _ (List.mem_append_left _ hn))

theorem params (h : IsFinished s) : AreFree s.params :=
  fun n hn => h.free n (List.mem_append_left _ (List.mem_append_right _ hn))

theorem uses (h : IsFinished s) : AreFree (s.freeNames Option.toList) :=
  fun n hn => h.free n (List.mem_append_right _ hn)

end IsFinished

/-- What a declaration has as its value stays, up to the positions in the body of a function. -/
def Retains (e : Expr) : Prop :=
  ∃ e', Passes (lift .bound e) ([], e') ∧ e'.erase = e.erase

theorem retains_of_isSimple {e : Expr} (h : e.IsSimple) (hfree : AreFree (e.freeNames Option.toList)) :
    Retains e :=
  ⟨e, passes_lift .bound e h hfree, rfl⟩

theorem retains_call {pos : Position} {callee : Expr} {args : List Expr} (hcallee : callee.IsSimple)
    (hargs : Expr.AreSimple args)
    (hfree : AreFree ((Expr.call pos callee args).freeNames Option.toList)) :
    Retains (.call pos callee args) := by
  obtain ⟨hfreeCallee, hfreeArgs⟩ := List.forall_mem_append.mp hfree
  exact ⟨_, (passes_lift .free callee hcallee hfreeCallee).bind
    ((passes_liftList .free args hargs hfreeArgs).bind (.pure _)), rfl⟩

theorem passes_declare {pos : Position} {kind : DeclKind} {target : Pattern} {e : Expr}
    (h : Retains e) (hfree : AreFree target.names) :
    ∃ s', Passes (stmt (.declare pos kind [(target, some e)])) [s'] ∧
      s'.erase = Stmt.erase (.declare pos kind [(target, some e)]) := by
  obtain ⟨e', he', herase⟩ := h
  refine ⟨.declare pos kind [(target, some e')], ?_, ?_⟩
  · exact (Passes.checkNames hfree).bind (he'.bind ((Passes.pure _).bind (.pure _)))
  · simp only [Stmt.erase, Stmt.eraseDeclarators, herase]

/-- The value of a statement that is an expression stays as it is. -/
theorem passes_expr {pos : Position} {e : Expr} (h : e.IsSimple)
    (hfree : AreFree (e.freeNames Option.toList)) :
    ∃ s', Passes (stmt (.expr pos e)) [s'] ∧ s'.erase = Stmt.erase (.expr pos e) := by
  refine ⟨.expr e.pos e, ?_, rfl⟩
  have hlift := passes_lift .free e h hfree
  cases e with
  | call | assign | update => exact h.elim
  | _ => exact hlift.bind (.pure _)

mutual

/-- Only the position of an expression statement may change, to that of the expression. -/
theorem passes_stmt (s : Stmt) (h : s.Everywhere IsFinished) :
    ∃ s', Passes (stmt s) [s'] ∧ s'.erase = s.erase := by
  have hhere := h.here
  match s with
  | .declare _ _ [] => exact hhere.normal.elim
  | .declare _ _ (_ :: _ :: _) => exact absurd hhere.normal (by simp [Stmt.IsNormal])
  | .declare _ _ [(target, none)] =>
      have htarget := (List.forall_mem_append.mp hhere.declared).1
      exact ⟨_, (Passes.checkNames htarget).bind ((Passes.pure _).bind (.pure _)), rfl⟩
  | .declare pos kind [(target, some e)] =>
      have huses := (List.forall_mem_append.mp hhere.uses).1
      refine passes_declare ?_ (List.forall_mem_append.mp hhere.declared).1
      cases e with
      | call cpos callee args => exact retains_call hhere.normal.1 hhere.normal.2 huses
      | function fpos self params body =>
          obtain ⟨body', hbody, herase⟩ := passes_stmts body h.2
          refine ⟨.function fpos self params body', ?_, by simp only [Expr.erase, herase]⟩
          exact (Passes.checkNames hhere.params).bind (hbody.bind (.pure _))
      | _ => exact retains_of_isSimple hhere.normal huses
  | .function pos name params body =>
      obtain ⟨body', hbody, herase⟩ := passes_stmts body h.2
      refine ⟨.function pos name params body', ?_, by simp only [Stmt.erase, herase]⟩
      exact (Passes.checkName (hhere.declared name (List.mem_singleton_self name))).bind
        ((Passes.checkNames hhere.params).bind (hbody.bind (.pure _)))
  | .ifElse pos test consequent none =>
      have htest := (List.forall_mem_append.mp hhere.uses).1
      obtain ⟨yes, hyes, herase⟩ := passes_stmts consequent h.2
      refine ⟨.ifElse pos test yes none, ?_, by simp only [Stmt.erase, herase]⟩
      exact (passes_lift .free test hhere.normal htest).bind (hyes.bind (.pure _))
  | .ifElse pos test consequent (some alternate) =>
      have htest := (List.forall_mem_append.mp hhere.uses).1
      obtain ⟨yes, hyes, heraseYes⟩ := passes_stmts consequent h.2.1
      obtain ⟨no, hno, heraseNo⟩ := passes_stmts alternate h.2.2
      refine ⟨.ifElse pos test yes (some no), ?_, by simp only [Stmt.erase, heraseYes, heraseNo]⟩
      exact (passes_lift .free test hhere.normal htest).bind (hyes.bind (hno.bind (.pure _)))
  | .whileDo pos test body =>
      have htest := (List.forall_mem_append.mp hhere.uses).1
      obtain ⟨body', hbody, herase⟩ := passes_stmts body h.2
      refine ⟨.whileDo pos test body', ?_, by simp only [Stmt.erase, herase]⟩
      exact (passes_lift (.guarded .callInLoopTest) test hhere.normal htest).bind
        (hbody.bind (.pure _))
  | .labeled pos label body =>
      obtain ⟨body', hbody, herase⟩ := passes_stmts body h.2
      exact ⟨.labeled pos label body', hbody.bind (.pure _), by simp only [Stmt.erase, herase]⟩
  | .block pos body =>
      obtain ⟨body', hbody, herase⟩ := passes_stmts body h.2
      exact ⟨.block pos body', hbody.bind (.pure _), by simp only [Stmt.erase, herase]⟩
  | .breakTo pos label => exact ⟨_, .pure _, rfl⟩
  | .returnWith pos none => exact ⟨_, .pure _, rfl⟩
  | .returnWith pos (some value) =>
      exact ⟨_, (passes_lift .free value hhere.normal hhere.uses).bind (.pure _), rfl⟩
  | .expr pos e =>
      have huses := hhere.uses
      cases e with
      | call | function => exact hhere.normal.elim
      | assign apos op target value =>
          obtain ⟨rfl, htarget, hvalue⟩ := hhere.normal
          obtain ⟨husesTarget, husesValue⟩ := List.forall_mem_append.mp huses
          exact ⟨_, (passes_lift (.guarded .callInAssignTarget) target htarget husesTarget).bind
            ((passes_lift .free value hvalue husesValue).bind (.pure _)), rfl⟩
      | update upos op isPrefix target =>
          exact ⟨_, (passes_lift (.guarded .callInUpdateTarget) target hhere.normal huses).bind
            (.pure _), rfl⟩
      | _ => exact passes_expr hhere.normal huses
termination_by sizeOf s

theorem passes_stmts (ss : List Stmt) (h : Stmt.EverywhereIn IsFinished ss) :
    ∃ ss', Passes (stmts ss) ss' ∧ Stmt.eraseList ss' = Stmt.eraseList ss := by
  cases ss with
  | nil => exact ⟨[], .pure _, rfl⟩
  | cons s ss =>
      obtain ⟨s', hs, herase⟩ := passes_stmt s h.1
      obtain ⟨ss', hss, heraseList⟩ := passes_stmts ss h.2
      refine ⟨s' :: ss', hs.bind (hss.bind (.pure _)), ?_⟩
      simp only [Stmt.eraseList, herase, heraseList]
termination_by sizeOf ss

end

/-- A program in normal form without reserved names stays as it is, up to positions. -/
theorem normalize_of_isFinished {p : Program} (h : Stmt.EverywhereIn IsFinished p) :
    ∃ q, normalize p = .ok q ∧ Stmt.eraseList q = Stmt.eraseList p := by
  obtain ⟨q, hq, herase⟩ := passes_stmts p h
  exact ⟨q, run'_eq_ok_iff.mpr ⟨_, hq _⟩, herase⟩

end TraceLoom.Script
