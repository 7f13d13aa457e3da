import TraceLoom.Proofs.Script.NormalNames

/-!
Where generated names stand in normal programs.  The name of a result or of a function that is moved
out of a statement is declared in front of the statement, in the same list of statements, and it is
used in that list only, behind its declaration.
-/

namespace TraceLoom.Script

open NormalForm
open Instrument (declared)

/-! ## Lists in which names are brought before they are used -/

section

variable (uses brings : Stmt → List String)

/-- What the statements of a list use is known from the start or has been brought by a statement
before. -/
def Ordered : List String → List Stmt → Prop
  | _, [] => True
  | known, s :: ss => (∀ n ∈ uses s, n ∈ known) ∧ Ordered (brings s ++ known) ss

variable {uses brings} {known known' : List String} {ss ts : List Stmt}

theorem Ordered.mono (h : Ordered uses brings known ss) (hknown : known ⊆ known') :
    Ordered uses brings known' ss := by
  induction ss generalizing known known' with
  | nil => exact trivial
  | cons s ss ih =>
      refine ⟨fun n hn => hknown (h.1 n hn), ih h.2 ?_⟩
      exact List.append_subset.mpr ⟨List.subset_append_left _ _,
        List.Subset.trans hknown (List.subset_append_right _ _)⟩

theorem Ordered.append (h : Ordered uses brings known ss)
    (h' : Ordered uses brings (ss.flatMap brings ++ known) ts) :
    Ordered uses brings known (ss ++ ts) := by
  induction ss generalizing known with
  | nil => exact h'
  | cons s ss ih =>
      refine ⟨h.1, ih h.2 (h'.mono ?_)⟩
      intro n hn
      simp only [List.flatMap_cons, List.mem_append] at hn ⊢
      tauto

theorem ordered_singleton {s : Stmt} :
    Ordered uses brings known [s] ↔ ∀ n ∈ uses s, n ∈ known :=
  and_iff_left trivial

/-- In such a list, whatever is used and not known from the start is brought. -/
theorem Ordered.mem_of_uses (h : Ordered uses brings known ss) {n : String}
    (hn : n ∈ ss.flatMap uses) : n ∈ ss.flatMap brings ++ known := by
  induction ss generalizing known with
  | nil => cases hn
  | cons s ss ih =>
      rw [List.flatMap_cons, List.mem_append] at hn
      simp only [List.flatMap_cons, List.mem_append]
      rcases hn with hhere | hrest
      · exact .inr (h.1 n hhere)
      · have hmem := ih h.2 hrest
        simp only [List.mem_append] at hmem
        tauto

end

/-! ## Generated names -/

/-- The variable that a declared function expression goes into.  The function may refer to it, by
the name that it gives itself. -/
def Stmt.holders : Stmt → List String
  | .declare _ _ [(target, some (.function ..))] => target.names
  | _ => []

/-- The generated names that a statement uses. -/
def generatedIn (s : Stmt) : List String :=
  (s.holders ++ s.freeNames Option.toList).filter isReserved

/-- The lists of statements that a statement is made of. -/
def Stmt.bodies : Stmt → List (List Stmt)
  | .declare _ _ [(_, some (.function _ _ _ body))] => [body]
  | .function _ _ _ body => [body]
  | .ifElse _ _ consequent none => [consequent]
  | .ifElse _ _ consequent (some alternate) => [consequent, alternate]
  | .whileDo _ _ body | .labeled _ _ body | .block _ body => [body]
  | _ => []

/-- Generated names are declared before they are used, in the same list. -/
abbrev Introduces (ss : List Stmt) : Prop :=
  Ordered generatedIn declared [] ss

/-- In a list and in all lists in it, generated names are declared before they are used. -/
structure IntroducesAll (ss : List Stmt) : Prop where
  here : Introduces ss
  inside : Stmt.EverywhereIn (fun s => ∀ body ∈ s.bodies, Introduces body) ss

section

variable {ss ts body : List Stmt} {s : Stmt} {n : String}

theorem mem_generatedIn : n ∈ generatedIn s ↔
    (n ∈ s.holders ∨ n ∈ s.freeNames Option.toList) ∧ isReserved n = true := by
  rw [generatedIn, List.mem_filter, List.mem_append]

theorem mem_freeNamesList : n ∈ Stmt.freeNamesList Option.toList ss ↔
    ∃ s ∈ ss, n ∈ s.freeNames Option.toList := by
  induction ss with
  | nil => simp [Stmt.freeNamesList]
  | cons s ss ih => simp [Stmt.freeNamesList, ih]

/-- Outside of a list there are no generated names that are used in it. -/
theorem Ordered.not_free (h : Introduces body) (hn : isReserved n = true) {bound : List String}
    (hbound : declaredIn body ⊆ bound) :
    n ∉ (Stmt.freeNamesList Option.toList body).filter (· ∉ bound) := by
  intro hfree
  obtain ⟨hmem, hnot⟩ := List.mem_filter.mp hfree
  obtain ⟨s, hs, huse⟩ := mem_freeNamesList.mp hmem
  have hbrought := h.mem_of_uses
    (List.mem_flatMap.mpr ⟨s, hs, mem_generatedIn.mpr ⟨.inr huse, hn⟩⟩)
  rw [List.append_nil] at hbrought
  exact (of_decide_eq_true hnot) (hbound hbrought)

namespace IntroducesAll

theorem nil : IntroducesAll [] :=
  ⟨trivial, trivial⟩

theorem append (h : IntroducesAll ss) (h' : IntroducesAll ts) : IntroducesAll (ss ++ ts) :=
  ⟨h.here.append (h'.here.mono (List.nil_subset _)),
    everywhereIn_append.mpr ⟨h.inside, h'.inside⟩⟩

/-- A statement behind the declarations of the names that it uses. -/
theorem behind (h : IntroducesAll ss)
    (hs : s.Everywhere fun s => ∀ body ∈ s.bodies, Introduces body)
    (huses : ∀ n ∈ generatedIn s, n ∈ declaredIn ss) : IntroducesAll (ss ++ [s]) := by
  refine ⟨h.here.append (ordered_singleton.mpr fun n hn => ?_),
    everywhereIn_append.mpr ⟨h.inside, everywhereIn_singleton.mpr hs⟩⟩
  rw [List.append_nil]
  exact huses n hn

theorem singleton (hs : s.Everywhere fun s => ∀ body ∈ s.bodies, Introduces body)
    (huses : generatedIn s = []) : IntroducesAll [s] :=
  nil.behind hs (by simp [huses])

end IntroducesAll

end

/-! ## Lifting -/

/-- What remains of an expression uses only generated names that are declared in front of it. -/
structure LiftIntroduces (r : Lifted) : Prop where
  front : IntroducesAll r.1
  uses : ∀ n ∈ r.2.freeNames Option.toList, isReserved n = true → n ∈ declaredIn r.1
  body : ∀ pos self params body, r.2 = .function pos self params body → IntroducesAll body

theorem declaredIn_append (ss ts : List Stmt) :
    declaredIn (ss ++ ts) = declaredIn ss ++ declaredIn ts :=
  List.flatMap_append

section

variable {front more : List Stmt} {e : Expr} {pos : Position}

/-- What two parts use is declared in front of both. -/
theorem uses_append {used used' : List String}
    (h : ∀ n ∈ used, isReserved n = true → n ∈ declaredIn front)
    (h' : ∀ n ∈ used', isReserved n = true → n ∈ declaredIn more) :
    ∀ n ∈ used ++ used', isReserved n = true → n ∈ declaredIn (front ++ more) := by
  intro n hn hreserved
  rw [declaredIn_append, List.mem_append]
  exact (List.mem_append.mp hn).imp (fun hn => h n hn hreserved) fun hn => h' n hn hreserved

theorem LiftIntroduces.of_uses (hfront : IntroducesAll front)
    (huses : ∀ n ∈ e.freeNames Option.toList, isReserved n = true → n ∈ declaredIn front)
    (hvalue : e.isFunction = false) : LiftIntroduces (front, e) := by
  refine ⟨hfront, huses, ?_⟩
  rintro _ _ _ _ rfl
  cases hvalue

/-- An expression statement, a test or a value that is returned stands behind what it uses. -/
theorem IntroducesAll.behind_value {s : Stmt} (h : LiftIntroduces (front, e))
    (hs : s.Everywhere fun s => ∀ body ∈ s.bodies, Introduces body) (hholders : s.holders = [])
    (huses : ∀ n ∈ s.freeNames Option.toList, isReserved n = true →
      n ∈ e.freeNames Option.toList) : IntroducesAll (front ++ [s]) := by
  refine h.front.behind hs fun n hn => ?_
  obtain ⟨hmem, hreserved⟩ := mem_generatedIn.mp hn
  rw [hholders] at hmem
  rcases hmem with hnil | hfree
  · cases hnil
  · exact h.uses n (huses n hfree hreserved) hreserved

theorem IntroducesAll.behind_declare {kind : DeclKind} {target : Pattern}
    (h : LiftIntroduces (front, e)) (htarget : ∀ n ∈ target.names, isReserved n = false) :
    IntroducesAll (front ++ [.declare pos kind [(target, some e)]]) := by
  refine h.front.behind (everywhere_declare ?_ ?_) fun n hn => ?_
  · cases e with
    | function fpos self params body =>
        exact List.forall_mem_singleton.mpr (h.body fpos self params body rfl).here
    | _ => exact List.forall_mem_nil _
  · rintro fpos self params body rfl
    exact (h.body fpos self params body rfl).inside
  · obtain ⟨hmem, hreserved⟩ := mem_generatedIn.mp hn
    rcases hmem with hholder | hfree
    · have hname : n ∈ target.names := by
        cases e with
        | function => exact hholder
        | _ => cases hholder
      rw [htarget n hname] at hreserved
      cases hreserved
    · rw [Stmt.freeNames, Stmt.freeNamesDeclarators, Stmt.freeNamesDeclarators,
        List.append_nil] at hfree
      exact h.uses n hfree hreserved

/-- A generated name takes the result of a call. -/
theorem IntroducesAll.behind_call {callee : Expr} {args : List Expr} (name : String)
    (hfront : IntroducesAll front)
    (huses : ∀ n ∈ (Expr.call pos callee args).freeNames Option.toList, isReserved n = true →
      n ∈ declaredIn front) :
    IntroducesAll (front ++ [bind pos name (.call pos callee args)]) := by
  refine IntroducesAll.behind_value (.of_uses hfront huses rfl) (List.forall_mem_nil _) rfl ?_
  intro n hn _
  simpa [NormalForm.bind, Stmt.freeNames, Stmt.freeNamesDeclarators] using hn

theorem introducesAll_function {name : String} {params : List String} {body : List Stmt}
    (h : IntroducesAll body) : IntroducesAll [.function pos name params body] := by
  refine .singleton ⟨List.forall_mem_singleton.mpr h.here, h.inside⟩ ?_
  refine List.eq_nil_iff_forall_not_mem.mpr fun n hn => ?_
  obtain ⟨hmem, hreserved⟩ := mem_generatedIn.mp hn
  rcases hmem with hnil | hfree
  · cases hnil
  · exact h.here.not_free hreserved (List.subset_append_right _ _) hfree

/-- A statement that is only made of lists of statements uses no generated names itself. -/
theorem introducesAll_block {s : Stmt} {body : List Stmt} (h : IntroducesAll body)
    (hs : s.Everywhere fun s => ∀ body ∈ s.bodies, Introduces body) (hholders : s.holders = [])
    (huses : s.freeNames Option.toList =
      (Stmt.freeNamesList Option.toList body).filter (· ∉ declaredIn body)) :
    IntroducesAll [s] := by
  refine .singleton hs (List.eq_nil_iff_forall_not_mem.mpr fun n hn => ?_)
  obtain ⟨hmem, hreserved⟩ := mem_generatedIn.mp hn
  rw [hholders, huses] at hmem
  rcases hmem with hnil | hfree
  · cases hnil
  · exact h.here.not_free hreserved (List.Subset.refl _) hfree

theorem introducesAll_plain {s : Stmt}
    (hs : s.Everywhere fun s => ∀ body ∈ s.bodies, Introduces body) (hholders : s.holders = [])
    (huses : s.freeNames Option.toList = []) : IntroducesAll [s] :=
  .singleton hs (by rw [generatedIn, hholders, huses]; rfl)

end

theorem yields_placeCall_introduces (place : Place) (pos : Position) {front : List Stmt}
    {callee : Expr} {args : List Expr} (hfront : IntroducesAll front)
    (huses : ∀ n ∈ (Expr.call pos callee args).freeNames Option.toList, isReserved n = true →
      n ∈ declaredIn front) :
    Yields (placeCall place pos front (.call pos callee args)) LiftIntroduces := by
  cases place with
  | bound => exact .pure (.of_uses hfront huses rfl)
  | free =>
      refine (Yields.trivial freshResult).bind fun name _ => .pure ?_
      refine .of_uses (hfront.behind_call name huses) (fun n hn _ => ?_) rfl
      rw [List.mem_singleton.mp hn, declaredIn_append]
      exact List.mem_append_right _ List.mem_cons_self
  | guarded => exact .refuse

/-- Around a construct with blocks only its test uses generated names. -/
theorem uses_test {used blocks : List String}
    (hblocks : ∀ n ∈ blocks, isReserved n = false) :
    ∀ n ∈ used ++ blocks, isReserved n = true → n ∈ used := by
  intro n hn hreserved
  rcases List.mem_append.mp hn with hused | hblock
  · exact hused
  · rw [hblocks n hblock] at hreserved
    cases hreserved

theorem IntroducesAll.plain_of_free {body : List Stmt} (h : IntroducesAll body) :
    ∀ n ∈ (Stmt.freeNamesList Option.toList body).filter (· ∉ declaredIn body),
      isReserved n = false :=
  fun _ hn => Bool.eq_false_iff.mpr fun hreserved =>
    h.here.not_free hreserved (List.Subset.refl _) hn

mutual

theorem yields_lift_introduces (place : Place) : (e : Expr) → Yields (lift place e) LiftIntroduces
  | .call pos callee args => by
      have hparts : Yields (do
          let (front, callee) ← lift .free callee
          let (more, args) ← liftList .free args
          placeCall place pos (front ++ more) (.call pos callee args)) LiftIntroduces := by
        refine (yields_lift_introduces .free callee).bind fun (front, callee) hcallee => ?_
        refine (yields_liftList_introduces .free args).bind fun (more, args) ⟨hmore, hargs⟩ => ?_
        exact yields_placeCall_introduces place pos (hcallee.front.append hmore)
          (uses_append hcallee.uses hargs)
      cases place with
      | guarded => exact .refuse
      | bound | free => exact hparts
  | .function pos name params body => by
      have hfunction : Yields (do
          params.forM (checkName pos)
          let body ← stmts body
          return ([], .function pos name params body)) LiftIntroduces := by
        refine (Yields.trivial _).bind fun _ _ => ?_
        refine (yields_stmts_introduces body).bind fun body hbody => .pure ⟨.nil, ?_, ?_⟩
        · intro n hn hreserved
          refine absurd hn (hbody.here.not_free hreserved ?_)
          exact List.subset_append_of_subset_left _ (List.subset_append_right _ _)
        · rintro _ _ _ _ ⟨⟩
          exact hbody
      have hdeclared : Yields (do
          let name ← functionName pos name
          params.forM (checkName pos)
          let body ← stmts body
          return ([.function pos name params body], .name pos name)) LiftIntroduces := by
        refine (Yields.trivial _).bind fun name _ => ?_
        refine (Yields.trivial _).bind fun _ _ => ?_
        refine (yields_stmts_introduces body).bind fun body hbody => .pure ?_
        refine .of_uses (introducesAll_function hbody) (fun n hn _ => ?_) rfl
        rw [List.mem_singleton.mp hn]
        exact List.mem_cons_self
      cases place with
      | bound => exact hfunction
      | free | guarded => exact hdeclared
  | .name pos n => by
      refine (Yields.checkName pos n).bind fun _ hn => .pure (.of_uses .nil ?_ rfl)
      intro m hm hreserved
      rw [List.mem_singleton.mp hm, hn] at hreserved
      cases hreserved
  | .binary pos op left right => by
      refine (yields_lift_introduces place.inner left).bind fun (front, left) hleft => ?_
      refine (yields_lift_introduces (place.right op) right).bind fun (more, right) hright => ?_
      exact .pure (.of_uses (hleft.front.append hright.front) (uses_append hleft.uses hright.uses)
        rfl)
  | .unary pos op operand =>
      (yields_lift_introduces place.inner operand).bind fun _ h =>
        .pure (.of_uses h.front h.uses rfl)
  | .member pos object property =>
      (yields_lift_introduces place.inner object).bind fun _ h =>
        .pure (.of_uses h.front h.uses rfl)
  | .index pos object index => by
      refine (yields_lift_introduces place.inner object).bind fun (front, object) hobject => ?_
      refine (yields_lift_introduces place.inner index).bind fun (more, index) hindex => ?_
      exact .pure (.of_uses (hobject.front.append hindex.front)
        (uses_append hobject.uses hindex.uses) rfl)
  | .array pos items =>
      (yields_liftList_introduces place.inner items).bind fun _ ⟨hfront, hitems⟩ =>
        .pure (.of_uses hfront hitems rfl)
  | .object pos entries =>
      (yields_liftEntries_introduces place.inner entries).bind fun _ ⟨hfront, hentries⟩ =>
        .pure (.of_uses hfront hentries rfl)
  | .assign .. => .refuse
  | .update .. => .refuse
  | .number .. | .string .. | .boolean .. | .null _ =>
      .pure (.of_uses .nil (fun _ hn => absurd hn List.not_mem_nil) rfl)

theorem yields_liftList_introduces (place : Place) : (es : List Expr) →
    Yields (liftList place es) fun r => IntroducesAll r.1 ∧
      ∀ n ∈ Expr.freeNamesList Option.toList r.2, isReserved n = true → n ∈ declaredIn r.1
  | [] => .pure ⟨.nil, fun _ hn => absurd hn List.not_mem_nil⟩
  | e :: es => by
      refine (yields_lift_introduces place e).bind fun (front, e) he => ?_
      refine (yields_liftList_introduces place es).bind fun (more, es) ⟨hmore, hes⟩ => ?_
      exact .pure ⟨he.front.append hmore, uses_append he.uses hes⟩

theorem yields_liftEntries_introduces (place : Place) : (es : List (String × Expr)) →
    Yields (liftEntries place es) fun r => IntroducesAll r.1 ∧
      ∀ n ∈ Expr.freeNamesEntries Option.toList r.2, isReserved n = true → n ∈ declaredIn r.1
  | [] => .pure ⟨.nil, fun _ hn => absurd hn List.not_mem_nil⟩
  | (key, e) :: es => by
      refine (yields_lift_introduces place e).bind fun (front, e) he => ?_
      refine (yields_liftEntries_introduces place es).bind fun (more, es) ⟨hmore, hes⟩ => ?_
      exact .pure ⟨he.front.append hmore, uses_append he.uses hes⟩

theorem yields_stmt_introduces : (s : Stmt) → Yields (stmt s) IntroducesAll
  | .declare pos kind ds => yields_declarators_introduces pos kind ds
  | .function pos name params body => by
      refine (Yields.trivial _).bind fun _ _ => (Yields.trivial _).bind fun _ _ => ?_
      exact (yields_stmts_introduces body).bind fun body hbody =>
        .pure (introducesAll_function hbody)
  | .ifElse pos test consequent none => by
      refine (yields_lift_introduces .free test).bind fun (front, test) htest => ?_
      refine (yields_stmts_introduces consequent).bind fun yes hyes => .pure ?_
      exact .behind_value htest ⟨List.forall_mem_singleton.mpr hyes.here, hyes.inside⟩ rfl
        (uses_test hyes.plain_of_free)
  | .ifElse pos test consequent (some alternate) => by
      refine (yields_lift_introduces .free test).bind fun (front, test) htest => ?_
      refine (yields_stmts_introduces consequent).bind fun yes hyes => ?_
      refine (yields_stmts_introduces alternate).bind fun no hno => .pure ?_
      refine .behind_value htest ⟨?_, hyes.inside, hno.inside⟩ rfl (uses_test ?_)
      · exact List.forall_mem_cons.mpr ⟨hyes.here, List.forall_mem_singleton.mpr hno.here⟩
      · exact List.forall_mem_append.mpr ⟨hyes.plain_of_free, hno.plain_of_free⟩
  | .whileDo pos test body => by
      refine (yields_lift_introduces (.guarded .callInLoopTest) test).bind
        fun (front, test) htest => ?_
      refine (yields_stmts_introduces body).bind fun body hbody => .pure ?_
      exact .behind_value htest ⟨List.forall_mem_singleton.mpr hbody.here, hbody.inside⟩ rfl
        (uses_test hbody.plain_of_free)
  | .labeled pos label body | .block pos body =>
      (yields_stmts_introduces body).bind fun _ hbody => .pure (introducesAll_block hbody
        ⟨List.forall_mem_singleton.mpr hbody.here, hbody.inside⟩ rfl rfl)
  | .breakTo .. | .returnWith _ none =>
      .pure (introducesAll_plain (List.forall_mem_nil _) rfl rfl)
  | .returnWith pos (some value) =>
      (yields_lift_introduces .free value).bind fun _ hvalue =>
        .pure (.behind_value hvalue (List.forall_mem_nil _) rfl fun _ hn _ => hn)
  | .expr _ (.call pos callee args) => by
      refine (yields_lift_introduces .free callee).bind fun (front, callee) hcallee => ?_
      refine (yields_liftList_introduces .free args).bind fun (more, args) ⟨hmore, hargs⟩ => ?_
      refine (Yields.trivial freshResult).bind fun name _ => .pure ?_
      exact (hcallee.front.append hmore).behind_call name (uses_append hcallee.uses hargs)
  | .expr _ (.assign pos op target value) => by
      refine (yields_lift_introduces (.guarded .callInAssignTarget) target).bind
        fun (front, target) htarget => ?_
      have hassign : Yields (do
          let (more, value) ← lift .free value
          return front ++ more ++ [.expr pos (.assign pos .assign target
            (spellOut pos op target value))]) IntroducesAll := by
        refine (yields_lift_introduces .free value).bind fun (more, value) hvalue => .pure ?_
        have hparts : LiftIntroduces (front ++ more, .assign pos .assign target value) :=
          .of_uses (htarget.front.append hvalue.front) (uses_append htarget.uses hvalue.uses) rfl
        refine .behind_value hparts (List.forall_mem_nil _) rfl fun n hn _ => ?_
        -- the target of a compound assignment is used twice
        have hspelt : ∀ n ∈ (spellOut pos op target value).freeNames Option.toList,
            n ∈ target.freeNames Option.toList ++ value.freeNames Option.toList :=
          uses_of_spellOut (fun _ => List.mem_append_left _) fun _ => List.mem_append_right _
        exact (List.mem_append.mp hn).elim (List.mem_append_left _) (hspelt n)
      dsimp only
      split
      · exact (Yields.trivial _).bind fun _ _ => hassign
      · exact hassign
  | .expr _ (.update pos op isPrefix target) =>
      (yields_lift_introduces (.guarded .callInUpdateTarget) target).bind fun _ htarget =>
        .pure (.behind_value htarget (List.forall_mem_nil _) rfl fun _ hn _ => hn)
  | .expr _ (.name ..) | .expr _ (.number ..) | .expr _ (.string ..) | .expr _ (.boolean ..)
  | .expr _ (.null _) | .expr _ (.array ..) | .expr _ (.object ..) | .expr _ (.function ..)
  | .expr _ (.member ..) | .expr _ (.index ..) | .expr _ (.unary ..) | .expr _ (.binary ..) =>
      (yields_lift_introduces .free _).bind fun _ he =>
        .pure (.behind_value he (List.forall_mem_nil _) rfl fun _ hn _ => hn)

theorem yields_declarators_introduces (pos : Position) (kind : DeclKind) :
    (ds : List (Pattern × Option Expr)) → Yields (declarators pos kind ds) IntroducesAll
  | [] => .pure .nil
  | (target, none) :: ds => by
      refine (Yields.trivial _).bind fun _ _ => ?_
      refine (yields_declarators_introduces pos kind ds).bind fun rest hrest => .pure ?_
      exact (introducesAll_plain (s := .declare pos kind [(target, none)])
        (List.forall_mem_nil _) rfl rfl).append hrest
  | (target, some e) :: ds => by
      refine (Yields.checkNames pos target.names).bind fun _ htarget => ?_
      refine (yields_lift_introduces .bound e).bind fun (front, e) he => ?_
      refine (yields_declarators_introduces pos kind ds).bind fun rest hrest => .pure ?_
      rw [List.append_cons]
      exact (IntroducesAll.behind_declare he htarget).append hrest

theorem yields_stmts_introduces : (ss : List Stmt) → Yields (stmts ss) IntroducesAll
  | [] => .pure .nil
  | s :: ss => (yields_stmt_introduces s).bind fun _ hs =>
      (yields_stmts_introduces ss).bind fun _ hss => .pure (hs.append hss)

end

/-- In a normal program generated names are declared in front of what uses them. -/
theorem introducesAll_of_normalize {source p : Program} (h : normalize source = .ok p) :
    IntroducesAll p := by
  obtain ⟨ν, hrun⟩ := run'_eq_ok_iff.mp h
  exact yields_stmts_introduces source _ _ _ hrun

end TraceLoom.Script
