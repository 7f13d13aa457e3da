import TraceLoom.Proofs.Script.Formation
import TraceLoom.Proofs.Script.Programs

/-!
The text of a normal program.  Normal form keeps a program legible, so that it is read back from its
text like the program that it comes from.
-/

namespace TraceLoom.Script

open NormalForm Printer

/-- What an expression is and how it starts do not change for the worse in another one. -/
structure Keeps (e e' : Expr) : Prop where
  target : e.isTarget = true → e'.isTarget = true
  object : e.isObject = true → e'.isObject = true
  opens : e'.opensObject = true → e.opensObject = true ∧ level e' = level e

/-- The declarations in front of a statement, and what remains of an expression in it. -/
structure LiftLegible (e : Expr) (r : Lifted) : Prop where
  front : Stmt.LegibleList r.1
  rest : r.2.Legible
  keeps : Keeps e r.2

/-- Where the first operand starts with an object literal as the lifted one does, so does the
expression. -/
theorem Keeps.opens_operand {e e' : Expr} (h : Keeps e e') {least : Nat}
    (hopens : (decide (least ≤ level e') && e'.opensObject) = true) :
    (decide (least ≤ level e) && e.opensObject) = true := by
  obtain ⟨hlevel, hopens⟩ := Bool.and_eq_true_iff.mp hopens
  obtain ⟨hopens, heq⟩ := h.opens hopens
  rw [heq] at hlevel
  exact Bool.and_eq_true_iff.mpr ⟨hlevel, hopens⟩

theorem legible_singleton {s : Stmt} (h : s.Legible) : Stmt.LegibleList [s] :=
  ⟨h, trivial⟩

theorem legible_bind (pos : Position) (name : String) {value : Expr} (h : value.Legible) :
    (bind pos name value).Legible :=
  ⟨⟨List.cons_ne_nil _ _, trivial⟩, h, trivial⟩

theorem legible_placeCall (place : Place) (pos : Position) {front : List Stmt}
    {callee callee' : Expr} {args args' : List Expr} (hfront : Stmt.LegibleList front)
    (hcallee : callee'.Legible) (hkeeps : Keeps callee callee') (hargs : Expr.LegibleList args') :
    Yields (placeCall place pos front (.call pos callee' args'))
      (LiftLegible (.call pos callee args)) := by
  have hcall : (Expr.call pos callee' args').Legible := ⟨⟨trivial, trivial⟩, hcallee, hargs⟩
  cases place with
  | bound => exact .pure ⟨hfront, hcall, nofun, nofun, fun h => ⟨hkeeps.opens_operand h, rfl⟩⟩
  | free =>
      refine (Yields.trivial _).bind fun name _ => .pure ?_
      exact ⟨throughoutList_append.mpr ⟨hfront, legible_singleton (legible_bind pos name hcall)⟩,
        ⟨trivial, trivial⟩, nofun, nofun, nofun⟩
  | guarded => exact .refuse

mutual

theorem legible_lift (place : Place) : (e : Expr) → e.Legible →
    Yields (lift place e) (LiftLegible e)
  | .call pos callee args, ⟨_, hcallee, hargs⟩ => by
      have hparts : Yields (do
          let (front, callee) ← NormalForm.lift .free callee
          let (more, args) ← NormalForm.liftList .free args
          NormalForm.placeCall place pos (front ++ more) (.call pos callee args))
          (LiftLegible (.call pos callee args)) := by
        refine (legible_lift .free callee hcallee).bind fun (front, callee') h => ?_
        refine (legible_liftList .free args hargs).bind fun (more, args') ⟨hmore, hargs⟩ => ?_
        exact legible_placeCall place pos (throughoutList_append.mpr ⟨h.front, hmore⟩) h.rest
          h.keeps hargs
      cases place with
      | guarded => exact .refuse
      | bound | free => exact hparts
  | .function pos name params body, ⟨_, hbody⟩ => by
      have hfunction : Yields (do
          params.forM (checkName pos)
          let body ← NormalForm.stmts body
          return ([], .function pos name params body))
          (LiftLegible (.function pos name params body)) := by
        refine (Yields.trivial _).bind fun _ _ => ?_
        refine (legible_stmts body hbody).bind fun body' hbody' => .pure ?_
        exact ⟨trivial, ⟨⟨trivial, trivial⟩, hbody'⟩, nofun, nofun, nofun⟩
      have hdeclared : Yields (do
          let name ← NormalForm.functionName pos name
          params.forM (checkName pos)
          let body ← NormalForm.stmts body
          return ([.function pos name params body], .name pos name))
          (LiftLegible (.function pos name params body)) := by
        refine (Yields.trivial _).bind fun _ _ => (Yields.trivial _).bind fun _ _ => ?_
        refine (legible_stmts body hbody).bind fun body' hbody' => .pure ?_
        exact ⟨legible_singleton ⟨⟨trivial, trivial⟩, hbody'⟩, ⟨trivial, trivial⟩, nofun, nofun,
          nofun⟩
      cases place with
      | bound => exact hfunction
      | free | guarded => exact hdeclared
  | .name pos n, h =>
      (Yields.trivial _).bind fun _ _ => .pure ⟨trivial, h, id, id, nofun⟩
  | .binary pos op left right, ⟨_, hleft, hright⟩ => by
      refine (legible_lift place.inner left hleft).bind fun (front, left') h => ?_
      refine (legible_lift (place.right op) right hright).bind fun (more, right') h' => .pure ?_
      exact ⟨throughoutList_append.mpr ⟨h.front, h'.front⟩, ⟨⟨trivial, trivial⟩, h.rest, h'.rest⟩,
        nofun, nofun, fun hopens => ⟨h.keeps.opens_operand hopens, rfl⟩⟩
  | .unary pos op operand, ⟨_, hoperand⟩ =>
      (legible_lift place.inner operand hoperand).bind fun _ h =>
        .pure ⟨h.front, ⟨⟨trivial, trivial⟩, h.rest⟩, nofun, nofun, nofun⟩
  | .member pos object property, ⟨_, hobject⟩ =>
      (legible_lift place.inner object hobject).bind fun _ h =>
        .pure ⟨h.front, ⟨⟨trivial, trivial⟩, h.rest⟩, id, nofun,
          fun hopens => ⟨h.keeps.opens_operand hopens, rfl⟩⟩
  | .index pos object index, ⟨_, hobject, hindex⟩ => by
      refine (legible_lift place.inner object hobject).bind fun (front, object') h => ?_
      refine (legible_lift place.inner index hindex).bind fun (more, index') h' => .pure ?_
      exact ⟨throughoutList_append.mpr ⟨h.front, h'.front⟩, ⟨⟨trivial, trivial⟩, h.rest, h'.rest⟩,
        id, nofun, fun hopens => ⟨h.keeps.opens_operand hopens, rfl⟩⟩
  | .array pos items, ⟨_, hitems⟩ =>
      (legible_liftList place.inner items hitems).bind fun _ ⟨hfront, hitems⟩ =>
        .pure ⟨hfront, ⟨⟨trivial, trivial⟩, hitems⟩, nofun, nofun, nofun⟩
  | .object pos entries, ⟨_, hentries⟩ =>
      (legible_liftEntries place.inner entries hentries).bind fun _ ⟨hfront, hentries⟩ =>
        .pure ⟨hfront, ⟨⟨trivial, trivial⟩, hentries⟩, nofun, id, fun h => ⟨h, rfl⟩⟩
  | .assign .., _ => .refuse
  | .update .., _ => .refuse
  | .number .., h | .string .., h | .boolean .., h | .null _, h =>
      .pure ⟨trivial, h, nofun, nofun, nofun⟩

theorem legible_liftList (place : Place) : (es : List Expr) → Expr.LegibleList es →
    Yields (liftList place es) fun r => Stmt.LegibleList r.1 ∧ Expr.LegibleList r.2
  | [], _ => .pure ⟨trivial, trivial⟩
  | e :: es, ⟨he, hes⟩ => by
      refine (legible_lift place e he).bind fun (front, e') h => ?_
      refine (legible_liftList place es hes).bind fun (more, es') ⟨hmore, hes⟩ => ?_
      exact .pure ⟨throughoutList_append.mpr ⟨h.front, hmore⟩, h.rest, hes⟩

theorem legible_liftEntries (place : Place) : (es : List (String × Expr)) →
    Expr.LegibleEntries es →
      Yields (liftEntries place es) fun r => Stmt.LegibleList r.1 ∧ Expr.LegibleEntries r.2
  | [], _ => .pure ⟨trivial, trivial⟩
  | (key, e) :: es, ⟨he, hes⟩ => by
      refine (legible_lift place e he).bind fun (front, e') h => ?_
      refine (legible_liftEntries place es hes).bind fun (more, es') ⟨hmore, hes⟩ => ?_
      exact .pure ⟨throughoutList_append.mpr ⟨h.front, hmore⟩, h.rest, hes⟩

theorem legible_stmt : (s : Stmt) → s.Legible → Yields (stmt s) Stmt.LegibleList
  | .declare pos kind ds, ⟨_, hds⟩ => legible_declarators pos kind ds hds
  | .function pos name params body, ⟨_, hbody⟩ => by
      refine (Yields.trivial _).bind fun _ _ => (Yields.trivial _).bind fun _ _ => ?_
      refine (legible_stmts body hbody).bind fun body' hbody' => .pure ?_
      exact legible_singleton ⟨⟨trivial, trivial⟩, hbody'⟩
  | .ifElse pos test consequent none, ⟨_, htest, hyes⟩ => by
      refine (legible_lift .free test htest).bind fun (front, test') h => ?_
      refine (legible_stmts consequent hyes).bind fun yes hyes => .pure ?_
      exact throughoutList_append.mpr
        ⟨h.front, legible_singleton ⟨⟨trivial, trivial⟩, h.rest, hyes⟩⟩
  | .ifElse pos test consequent (some alternate), ⟨_, htest, hyes, hno⟩ => by
      refine (legible_lift .free test htest).bind fun (front, test') h => ?_
      refine (legible_stmts consequent hyes).bind fun yes hyes => ?_
      refine (legible_stmts alternate hno).bind fun no hno => .pure ?_
      exact throughoutList_append.mpr
        ⟨h.front, legible_singleton ⟨⟨trivial, trivial⟩, h.rest, hyes, hno⟩⟩
  | .whileDo pos test body, ⟨_, htest, hbody⟩ => by
      refine (legible_lift (.guarded .callInLoopTest) test htest).bind fun (front, test') h => ?_
      refine (legible_stmts body hbody).bind fun body' hbody' => .pure ?_
      exact throughoutList_append.mpr
        ⟨h.front, legible_singleton ⟨⟨trivial, trivial⟩, h.rest, hbody'⟩⟩
  | .labeled pos label body, ⟨_, hbody⟩ =>
      (legible_stmts body hbody).bind fun _ hbody' =>
        .pure (legible_singleton ⟨⟨trivial, trivial⟩, hbody'⟩)
  | .breakTo .., h => .pure (legible_singleton h)
  | .returnWith _ none, h => .pure (legible_singleton h)
  | .returnWith pos (some value), ⟨_, hvalue⟩ =>
      (legible_lift .free value hvalue).bind fun _ h =>
        .pure (throughoutList_append.mpr ⟨h.front, legible_singleton ⟨⟨trivial, trivial⟩, h.rest⟩⟩)
  | .block pos body, ⟨_, hbody⟩ =>
      (legible_stmts body hbody).bind fun _ hbody' =>
        .pure (legible_singleton ⟨⟨trivial, trivial⟩, hbody'⟩)
  | .expr _ (.call pos callee args), ⟨_, _, hcallee, hargs⟩ => by
      refine (legible_lift .free callee hcallee).bind fun (front, callee') h => ?_
      refine (legible_liftList .free args hargs).bind fun (more, args') ⟨hmore, hargs⟩ => ?_
      refine (Yields.trivial _).bind fun name _ => .pure ?_
      exact throughoutList_append.mpr ⟨throughoutList_append.mpr ⟨h.front, hmore⟩,
        legible_singleton (legible_bind pos name ⟨⟨trivial, trivial⟩, h.rest, hargs⟩)⟩
  | .expr _ (.assign pos op target value), ⟨⟨_, hopens⟩, ⟨htargeted, _⟩, htarget, hvalue⟩ => by
      refine (legible_lift (.guarded .callInAssignTarget) target htarget).bind
        fun (front, target') h => ?_
      have hassign : Yields (do
          let (more, value) ← NormalForm.lift .free value
          return front ++ more ++ [.expr pos (.assign pos .assign target'
            (spellOut pos op target' value))]) Stmt.LegibleList := by
        refine (legible_lift .free value hvalue).bind fun (more, value') h' => .pure ?_
        refine throughoutList_append.mpr ⟨throughoutList_append.mpr ⟨h.front, h'.front⟩,
          legible_singleton ⟨⟨trivial, fun hobject => hopens (h.keeps.opens_operand hobject)⟩,
            ⟨h.keeps.target htargeted, trivial⟩, h.rest, ?_⟩⟩
        unfold spellOut
        split
        · exact ⟨⟨trivial, trivial⟩, h.rest, h'.rest⟩
        · exact h'.rest
      dsimp only
      split
      · exact (Yields.trivial _).bind fun _ _ => hassign
      · exact hassign
  | .expr _ (.update pos op isPrefix target), ⟨⟨_, hopens⟩, ⟨htargeted, _⟩, htarget⟩ => by
      refine (legible_lift (.guarded .callInUpdateTarget) target htarget).bind
        fun (front, target') h => .pure ?_
      refine throughoutList_append.mpr ⟨h.front, legible_singleton
        ⟨⟨trivial, fun hobject => ?_⟩, ⟨h.keeps.target htargeted, trivial⟩, h.rest⟩⟩
      rw [Expr.opensObject, Bool.and_assoc, Bool.and_eq_true_iff] at hobject
      refine hopens ?_
      rw [Expr.opensObject, Bool.and_assoc, Bool.and_eq_true_iff]
      exact ⟨hobject.1, h.keeps.opens_operand hobject.2⟩
  | .expr _ (.name ..), ⟨hs, he⟩ | .expr _ (.number ..), ⟨hs, he⟩ | .expr _ (.string ..), ⟨hs, he⟩
  | .expr _ (.boolean ..), ⟨hs, he⟩ | .expr _ (.null _), ⟨hs, he⟩ | .expr _ (.array ..), ⟨hs, he⟩
  | .expr _ (.object ..), ⟨hs, he⟩ | .expr _ (.function ..), ⟨hs, he⟩
  | .expr _ (.member ..), ⟨hs, he⟩ | .expr _ (.index ..), ⟨hs, he⟩
  | .expr _ (.unary ..), ⟨hs, he⟩ | .expr _ (.binary ..), ⟨hs, he⟩ =>
      (legible_lift .free _ he).bind fun _ h =>
        .pure (throughoutList_append.mpr ⟨h.front, legible_singleton
          ⟨⟨trivial, fun hobject => h.keeps.object (hs.2 (h.keeps.opens hobject).1)⟩, h.rest⟩⟩)

theorem legible_declarators (pos : Position) (kind : DeclKind) :
    (ds : List (Pattern × Option Expr)) → Stmt.LegibleDeclarators ds →
      Yields (declarators pos kind ds) Stmt.LegibleList
  | [], _ => .pure trivial
  | (target, none) :: ds, hds => by
      refine (Yields.trivial _).bind fun _ _ => ?_
      refine (legible_declarators pos kind ds hds).bind fun rest hrest => .pure ?_
      exact ⟨⟨⟨List.cons_ne_nil _ _, trivial⟩, trivial⟩, hrest⟩
  | (target, some e) :: ds, ⟨he, hds⟩ => by
      refine (Yields.trivial _).bind fun _ _ => ?_
      refine (legible_lift .bound e he).bind fun (front, e') h => ?_
      refine (legible_declarators pos kind ds hds).bind fun rest hrest => .pure ?_
      exact throughoutList_append.mpr
        ⟨h.front, ⟨⟨List.cons_ne_nil _ _, trivial⟩, h.rest, trivial⟩, hrest⟩

theorem legible_stmts : (ss : List Stmt) → Stmt.LegibleList ss → Yields (stmts ss) Stmt.LegibleList
  | [], _ => .pure trivial
  | s :: ss, ⟨hs, hss⟩ =>
      (legible_stmt s hs).bind fun _ hs =>
        (legible_stmts ss hss).bind fun _ hss => .pure (throughoutList_append.mpr ⟨hs, hss⟩)

end

/-- The normal form of a legible program is legible. -/
theorem legible_normalize {source p : Program} (hsource : Stmt.LegibleList source)
    (h : normalize source = .ok p) : Stmt.LegibleList p := by
  obtain ⟨ν, hrun⟩ := run'_eq_ok_iff.mp h
  exact legible_stmts source hsource _ _ _ hrun

/-- The normal form of whatever is read from a text is read back from its own text, if what was
read is. -/
theorem parse_toSource_of_normalize {text : String} {source p : Program}
    (hparse : parse text = .ok source)
    (hplain : Stmt.ThroughoutList Expr.ReadsNumber Stmt.OpensNoBlock source)
    (h : normalize source = .ok p) :
    ∃ p', parse p.toSource = .ok p' ∧ Stmt.eraseList p' = Stmt.eraseList p :=
  Parser.parse_toSource p (normal_spelled.normalize (spelled_of_parse hparse) h)
    (legible_normalize (Stmt.throughoutList_and source (wellFormed_of_parse hparse) hplain) h)

end TraceLoom.Script
