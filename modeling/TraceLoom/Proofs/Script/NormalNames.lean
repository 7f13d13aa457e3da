import TraceLoom.Proofs.Instrument.Lowering
import TraceLoom.Proofs.Script.Everywhere
import TraceLoom.Script.NormalForm

/-!
Names in normal programs.  A program may not use names that start with a dollar sign, so that in
its normal form only the names made for it do.
-/

namespace TraceLoom.Script

open NormalForm

variable {ok : String → Prop}

/-- The names that a statement declares and uses. -/
def NamesFit (ok : String → Prop) (s : Stmt) : Prop :=
  ∀ n ∈ Instrument.declared s ++ s.params ++ s.freeNames Option.toList, ok n

/-- The names in an expression; if it is a function, those in its body too. -/
structure ValueFits (ok : String → Prop) (e : Expr) : Prop where
  uses : ∀ n ∈ e.freeNames Option.toList, ok n
  function : ∀ pos self params body, e = .function pos self params body →
    (∀ n ∈ params, ok n) ∧ Stmt.EverywhereIn (NamesFit ok) body

theorem uses_of_everywhereIn {ss : List Stmt} (h : Stmt.EverywhereIn (NamesFit ok) ss) :
    ∀ n ∈ Stmt.freeNamesList Option.toList ss, ok n := by
  induction ss with
  | nil => simp [Stmt.freeNamesList]
  | cons s ss ih =>
      intro n hn
      rcases List.mem_append.mp hn with hhere | hrest
      · exact h.1.here n (List.mem_append_right _ hhere)
      · exact ih h.2 n hrest

theorem NamesFit.of_uses {s : Stmt} (hdeclared : Instrument.declared s = [])
    (hparams : s.params = []) (h : ∀ n ∈ s.freeNames Option.toList, ok n) : NamesFit ok s := by
  rw [NamesFit, hdeclared, hparams]
  exact h

theorem ValueFits.of_uses {e : Expr} (h : ∀ n ∈ e.freeNames Option.toList, ok n)
    (hvalue : ∀ pos self params body, e ≠ .function pos self params body) : ValueFits ok e :=
  ⟨h, fun pos self params body heq => absurd heq (hvalue pos self params body)⟩

theorem ValueFits.of_function {pos : Position} {self : Option String} {params : List String}
    {body : List Stmt} (hparams : ∀ n ∈ params, ok n) (hbody : Stmt.EverywhereIn (NamesFit ok) body) :
    ValueFits ok (.function pos self params body) := by
  refine ⟨fun n hn => uses_of_everywhereIn hbody n (List.mem_of_mem_filter hn), ?_⟩
  rintro _ _ _ _ heq
  cases heq
  exact ⟨hparams, hbody⟩

theorem ValueFits.declare {pos : Position} {kind : DeclKind} {target : Pattern} {e : Expr}
    (h : ValueFits ok e) (htarget : ∀ n ∈ target.names, ok n) :
    Stmt.Everywhere (NamesFit ok) (.declare pos kind [(target, some e)]) := by
  refine everywhere_declare (fun n hn => ?_) fun fpos self params body heq =>
    (h.function fpos self params body heq).2
  simp only [List.mem_append, Instrument.declared, List.flatMap_cons, List.flatMap_nil,
    Stmt.freeNames, Stmt.freeNamesDeclarators, List.not_mem_nil, or_false] at hn
  rcases hn with (hn | hn) | hn
  · exact htarget n hn
  · cases e with
    | function fpos self params body => exact (h.function fpos self params body rfl).1 n hn
    | _ => exact absurd hn List.not_mem_nil
  · exact h.uses n hn

theorem uses_of_block {body : List Stmt} (h : Stmt.EverywhereIn (NamesFit ok) body)
    {bound : String → Bool} : ∀ n ∈ (Stmt.freeNamesList Option.toList body).filter bound, ok n :=
  fun n hn => uses_of_everywhereIn h n (List.mem_of_mem_filter hn)

theorem everywhere_function {pos : Position} {name : String} {params : List String}
    {body : List Stmt} (hname : ok name) (hparams : ∀ n ∈ params, ok n)
    (hbody : Stmt.EverywhereIn (NamesFit ok) body) :
    Stmt.Everywhere (NamesFit ok) (.function pos name params body) :=
  ⟨List.forall_mem_append.mpr ⟨List.forall_mem_cons.mpr ⟨hname, hparams⟩, uses_of_block hbody⟩, hbody⟩

/-! ## Lifting -/

/-- Whatever a step gives, if it does not refuse, has a property. -/
def Yields {α : Type} (m : Lifting α) (q : α → Prop) : Prop :=
  ∀ ν a ν', m.run ν = .ok (a, ν') → q a

namespace Yields

variable {α β : Type} {m : Lifting α} {q : α → Prop} {r : β → Prop}

theorem bind {f : α → Lifting β} (h : Yields m q) (hf : ∀ a, q a → Yields (f a) r) :
    Yields (m >>= f) r := by
  intro ν b ν' hrun
  obtain ⟨a, ν₁, hm, hfa⟩ := run_bind_eq_ok_iff.mp hrun
  exact hf a (h ν a ν₁ hm) ν₁ b ν' hfa

theorem pure {a : α} (h : q a) : Yields (pure a) q := by
  intro ν b ν' hrun
  cases run_pure_eq_ok_iff.mp hrun
  exact h

theorem trivial (m : Lifting α) : Yields m fun _ => True :=
  fun _ _ _ _ => True.intro

theorem refuse {e : ParseError} : Yields (refuse e) q :=
  fun _ _ _ hrun => absurd hrun run_throw_ne_ok

theorem checkName (pos : Position) (n : String) :
    Yields (checkName pos n) fun _ => isReserved n = false := by
  unfold NormalForm.checkName
  split
  · exact refuse
  · rename_i hn
    exact pure (by simpa using hn)

theorem checkNames (pos : Position) (ns : List String) :
    Yields (ns.forM (NormalForm.checkName pos)) fun _ => ∀ n ∈ ns, isReserved n = false := by
  induction ns with
  | nil => exact pure (by simp)
  | cons n ns ih =>
      exact (checkName pos n).bind fun _ hn => fun ν a ν' hrun =>
        List.forall_mem_cons.mpr ⟨hn, ih ν a ν' hrun⟩

end Yields

theorem isDigit_of_mem_toString {c : Char} {i : Nat} (h : c ∈ (toString i).toList) :
    c.isDigit = true :=
  Nat.isDigit_of_mem_toDigits (b := 10) (by decide) (by decide) (Nat.toList_repr (n := i) ▸ h)

/-- The names that a normal program may have. -/
structure Covers (ok : String → Prop) : Prop where
  plain : ∀ n, isReserved n = false → ok n
  result : ∀ i : Nat, ok ("$t" ++ toString i)
  function : ∀ i : Nat, ok ("$f" ++ toString i)

theorem yields_freshResult (hok : Covers ok) : Yields freshResult ok := by
  intro ν n ν' hrun
  cases hrun
  exact hok.result _

theorem yields_functionName (hok : Covers ok) (pos : Position) (name : Option String) :
    Yields (functionName pos name) ok := by
  cases name with
  | some name => exact (Yields.checkName pos name).bind fun _ hname => .pure (hok.plain name hname)
  | none =>
      intro ν n ν' hrun
      cases hrun
      exact hok.function _

/-- The declarations in front of a statement, and what remains of an expression in it. -/
def LiftFits (ok : String → Prop) (r : Lifted) : Prop :=
  Stmt.EverywhereIn (NamesFit ok) r.1 ∧ ValueFits ok r.2

theorem yields_placeCall (hok : Covers ok) (place : Place) (pos : Position) {front : List Stmt} {callee : Expr}
    {args : List Expr} (hfront : Stmt.EverywhereIn (NamesFit ok) front)
    (huses : ∀ n ∈ (Expr.call pos callee args).freeNames Option.toList, ok n) :
    Yields (placeCall place pos front (.call pos callee args)) (LiftFits ok) := by
  have hcall : ValueFits ok (.call pos callee args) := .of_uses huses nofun
  cases place with
  | bound => exact .pure ⟨hfront, hcall⟩
  | free =>
      refine (yields_freshResult hok).bind fun name hname => .pure ⟨?_, ?_⟩
      · refine everywhereIn_append.mpr ⟨hfront, everywhereIn_singleton.mpr ?_⟩
        exact hcall.declare (List.forall_mem_singleton.mpr hname)
      · exact .of_uses (List.forall_mem_singleton.mpr hname) nofun
  | guarded => exact .refuse

theorem uses_of_spellOut {pos : Position} {op : AssignOp} {target value : Expr}
    (htarget : ∀ n ∈ target.freeNames Option.toList, ok n)
    (hvalue : ∀ n ∈ value.freeNames Option.toList, ok n) :
    ∀ n ∈ (spellOut pos op target value).freeNames Option.toList, ok n := by
  unfold spellOut
  split
  · exact List.forall_mem_append.mpr ⟨htarget, hvalue⟩
  · exact hvalue

mutual

theorem yields_lift (hok : Covers ok) (place : Place) : (e : Expr) → Yields (lift place e) (LiftFits ok)
  | .call pos callee args => by
      have hparts : Yields (do
          let (front, callee) ← lift .free callee
          let (more, args) ← liftList .free args
          placeCall place pos (front ++ more) (.call pos callee args)) (LiftFits ok) := by
        refine (yields_lift hok .free callee).bind fun (front, callee) ⟨hfront, hcallee⟩ => ?_
        refine (yields_liftList hok .free args).bind fun (more, args) ⟨hmore, hargs⟩ => ?_
        exact yields_placeCall hok place pos (everywhereIn_append.mpr ⟨hfront, hmore⟩)
          (List.forall_mem_append.mpr ⟨hcallee.uses, hargs⟩)
      cases place with
      | guarded => exact .refuse
      | bound | free => exact hparts
  | .function pos name params body => by
      have hfunction (name : Option String) : Yields (do
          params.forM (checkName pos)
          let body ← stmts body
          return ([], .function pos name params body)) (LiftFits ok) := by
        refine (Yields.checkNames pos params).bind fun _ hparams => ?_
        refine (yields_stmts hok body).bind fun body hbody => .pure ⟨trivial, ?_⟩
        exact .of_function (fun n hn => hok.plain n (hparams n hn)) hbody
      have hdeclared : Yields (do
          let name ← functionName pos name
          params.forM (checkName pos)
          let body ← stmts body
          return ([.function pos name params body], .name pos name)) (LiftFits ok) := by
        refine (yields_functionName hok pos name).bind fun name hname => ?_
        refine (Yields.checkNames pos params).bind fun _ hparams => ?_
        refine (yields_stmts hok body).bind fun body hbody => .pure ⟨?_, ?_⟩
        · exact everywhereIn_singleton.mpr
            (everywhere_function hname (fun n hn => hok.plain n (hparams n hn)) hbody)
        · exact .of_uses (List.forall_mem_singleton.mpr hname) nofun
      cases place with
      | bound => exact hfunction name
      | free | guarded => exact hdeclared
  | .name pos n => by
      refine (Yields.checkName pos n).bind fun _ hn => .pure ⟨trivial, ?_⟩
      exact .of_uses (List.forall_mem_singleton.mpr (hok.plain n hn)) nofun
  | .binary pos op left right => by
      refine (yields_lift hok place.inner left).bind fun (front, left) ⟨hfront, hleft⟩ => ?_
      refine (yields_lift hok (place.right op) right).bind fun (more, right) ⟨hmore, hright⟩ => ?_
      exact .pure ⟨everywhereIn_append.mpr ⟨hfront, hmore⟩,
        .of_uses (List.forall_mem_append.mpr ⟨hleft.uses, hright.uses⟩) nofun⟩
  | .unary pos op operand =>
      (yields_lift hok place.inner operand).bind fun _ ⟨hfront, hoperand⟩ =>
        .pure ⟨hfront, .of_uses hoperand.uses nofun⟩
  | .member pos object property =>
      (yields_lift hok place.inner object).bind fun _ ⟨hfront, hobject⟩ =>
        .pure ⟨hfront, .of_uses hobject.uses nofun⟩
  | .index pos object index => by
      refine (yields_lift hok place.inner object).bind fun (front, object) ⟨hfront, hobject⟩ => ?_
      refine (yields_lift hok place.inner index).bind fun (more, index) ⟨hmore, hindex⟩ => ?_
      exact .pure ⟨everywhereIn_append.mpr ⟨hfront, hmore⟩,
        .of_uses (List.forall_mem_append.mpr ⟨hobject.uses, hindex.uses⟩) nofun⟩
  | .array pos items =>
      (yields_liftList hok place.inner items).bind fun _ ⟨hfront, hitems⟩ =>
        .pure ⟨hfront, .of_uses hitems nofun⟩
  | .object pos entries =>
      (yields_liftEntries hok place.inner entries).bind fun _ ⟨hfront, hentries⟩ =>
        .pure ⟨hfront, .of_uses hentries nofun⟩
  | .assign .. => .refuse
  | .update .. => .refuse
  | .number .. | .string .. | .boolean .. | .null _ =>
      .pure ⟨trivial, .of_uses (fun _ hn => absurd hn List.not_mem_nil) nofun⟩

theorem yields_liftList (hok : Covers ok) (place : Place) : (es : List Expr) →
    Yields (liftList place es) fun r => Stmt.EverywhereIn (NamesFit ok) r.1 ∧
      ∀ n ∈ Expr.freeNamesList Option.toList r.2, ok n
  | [] => .pure ⟨trivial, fun _ hn => absurd hn List.not_mem_nil⟩
  | e :: es => by
      refine (yields_lift hok place e).bind fun (front, e) ⟨hfront, he⟩ => ?_
      refine (yields_liftList hok place es).bind fun (more, es) ⟨hmore, hes⟩ => ?_
      exact .pure ⟨everywhereIn_append.mpr ⟨hfront, hmore⟩,
        List.forall_mem_append.mpr ⟨he.uses, hes⟩⟩

theorem yields_liftEntries (hok : Covers ok) (place : Place) : (es : List (String × Expr)) →
    Yields (liftEntries place es) fun r => Stmt.EverywhereIn (NamesFit ok) r.1 ∧
      ∀ n ∈ Expr.freeNamesEntries Option.toList r.2, ok n
  | [] => .pure ⟨trivial, fun _ hn => absurd hn List.not_mem_nil⟩
  | (key, e) :: es => by
      refine (yields_lift hok place e).bind fun (front, e) ⟨hfront, he⟩ => ?_
      refine (yields_liftEntries hok place es).bind fun (more, es) ⟨hmore, hes⟩ => ?_
      exact .pure ⟨everywhereIn_append.mpr ⟨hfront, hmore⟩,
        List.forall_mem_append.mpr ⟨he.uses, hes⟩⟩

theorem yields_stmt (hok : Covers ok) : (s : Stmt) → Yields (stmt s) (Stmt.EverywhereIn (NamesFit ok))
  | .declare pos kind ds => yields_declarators hok pos kind ds
  | .function pos name params body => by
      refine (Yields.checkName pos name).bind fun _ hname => ?_
      refine (Yields.checkNames pos params).bind fun _ hparams => ?_
      refine (yields_stmts hok body).bind fun body hbody => .pure (everywhereIn_singleton.mpr ?_)
      exact everywhere_function (hok.plain name hname) (fun n hn => hok.plain n (hparams n hn)) hbody
  | .ifElse pos test consequent none => by
      refine (yields_lift hok .free test).bind fun (front, test) ⟨hfront, htest⟩ => ?_
      refine (yields_stmts hok consequent).bind fun yes hyes => .pure ?_
      refine everywhereIn_append.mpr ⟨hfront, everywhereIn_singleton.mpr ⟨.of_uses rfl rfl ?_, hyes⟩⟩
      exact List.forall_mem_append.mpr ⟨htest.uses, uses_of_block hyes⟩
  | .ifElse pos test consequent (some alternate) => by
      refine (yields_lift hok .free test).bind fun (front, test) ⟨hfront, htest⟩ => ?_
      refine (yields_stmts hok consequent).bind fun yes hyes => ?_
      refine (yields_stmts hok alternate).bind fun no hno => .pure ?_
      refine everywhereIn_append.mpr ⟨hfront, everywhereIn_singleton.mpr ⟨.of_uses rfl rfl ?_, hyes, hno⟩⟩
      exact List.forall_mem_append.mpr
        ⟨htest.uses, List.forall_mem_append.mpr ⟨uses_of_block hyes, uses_of_block hno⟩⟩
  | .whileDo pos test body => by
      refine (yields_lift hok (.guarded .callInLoopTest) test).bind fun (front, test) ⟨hfront, htest⟩ => ?_
      refine (yields_stmts hok body).bind fun body hbody => .pure ?_
      refine everywhereIn_append.mpr ⟨hfront, everywhereIn_singleton.mpr ⟨.of_uses rfl rfl ?_, hbody⟩⟩
      exact List.forall_mem_append.mpr ⟨htest.uses, uses_of_block hbody⟩
  | .labeled pos label body =>
      (yields_stmts hok body).bind fun _ hbody =>
        .pure (everywhereIn_singleton.mpr ⟨uses_of_block hbody, hbody⟩)
  | .breakTo .. => .pure (everywhereIn_singleton.mpr fun _ hn => absurd hn List.not_mem_nil)
  | .returnWith _ none => .pure (everywhereIn_singleton.mpr fun _ hn => absurd hn List.not_mem_nil)
  | .returnWith pos (some value) => by
      refine (yields_lift hok .free value).bind fun (front, value) ⟨hfront, hvalue⟩ => .pure ?_
      exact everywhereIn_append.mpr ⟨hfront, everywhereIn_singleton.mpr hvalue.uses⟩
  | .block pos body =>
      (yields_stmts hok body).bind fun _ hbody =>
        .pure (everywhereIn_singleton.mpr ⟨uses_of_block hbody, hbody⟩)
  | .expr _ (.call pos callee args) => by
      refine (yields_lift hok .free callee).bind fun (front, callee) ⟨hfront, hcallee⟩ => ?_
      refine (yields_liftList hok .free args).bind fun (more, args) ⟨hmore, hargs⟩ => ?_
      refine (yields_freshResult hok).bind fun name hname => .pure ?_
      have hcall : ValueFits ok (.call pos callee args) :=
        .of_uses (List.forall_mem_append.mpr ⟨hcallee.uses, hargs⟩) nofun
      exact everywhereIn_append.mpr ⟨everywhereIn_append.mpr ⟨hfront, hmore⟩,
        everywhereIn_singleton.mpr (hcall.declare (List.forall_mem_singleton.mpr hname))⟩
  | .expr _ (.assign pos op target value) => by
      refine (yields_lift hok (.guarded .callInAssignTarget) target).bind
        fun (front, target) ⟨hfront, htarget⟩ => ?_
      have hassign : Yields (do
          let (more, value) ← lift .free value
          return front ++ more ++ [.expr pos (.assign pos .assign target
            (spellOut pos op target value))]) (Stmt.EverywhereIn (NamesFit ok)) := by
        refine (yields_lift hok .free value).bind fun (more, value) ⟨hmore, hvalue⟩ => .pure ?_
        refine everywhereIn_append.mpr ⟨everywhereIn_append.mpr ⟨hfront, hmore⟩, ?_⟩
        refine everywhereIn_singleton.mpr (NamesFit.of_uses rfl rfl ?_)
        exact List.forall_mem_append.mpr ⟨htarget.uses, uses_of_spellOut htarget.uses hvalue.uses⟩
      dsimp only
      split
      · exact (Yields.trivial _).bind fun _ _ => hassign
      · exact hassign
  | .expr _ (.update pos op isPrefix target) => by
      refine (yields_lift hok (.guarded .callInUpdateTarget) target).bind
        fun (front, target) ⟨hfront, htarget⟩ => .pure ?_
      exact everywhereIn_append.mpr ⟨hfront, everywhereIn_singleton.mpr htarget.uses⟩
  | .expr _ (.name ..) | .expr _ (.number ..) | .expr _ (.string ..) | .expr _ (.boolean ..)
  | .expr _ (.null _) | .expr _ (.array ..) | .expr _ (.object ..) | .expr _ (.function ..)
  | .expr _ (.member ..) | .expr _ (.index ..) | .expr _ (.unary ..) | .expr _ (.binary ..) =>
      (yields_lift hok .free _).bind fun _ ⟨hfront, he⟩ =>
        .pure (everywhereIn_append.mpr ⟨hfront, everywhereIn_singleton.mpr he.uses⟩)

theorem yields_declarators (hok : Covers ok) (pos : Position) (kind : DeclKind) :
    (ds : List (Pattern × Option Expr)) →
      Yields (declarators pos kind ds) (Stmt.EverywhereIn (NamesFit ok))
  | [] => .pure trivial
  | (target, none) :: ds => by
      refine (Yields.checkNames pos target.names).bind fun _ htarget => ?_
      refine (yields_declarators hok pos kind ds).bind fun rest hrest => .pure ⟨fun n hn => ?_, hrest⟩
      simp only [List.mem_append, Instrument.declared, List.flatMap_cons, List.flatMap_nil,
        Stmt.params, Stmt.freeNames, Stmt.freeNamesDeclarators, List.not_mem_nil, or_false] at hn
      exact hok.plain n (htarget n hn)
  | (target, some e) :: ds => by
      refine (Yields.checkNames pos target.names).bind fun _ htarget => ?_
      refine (yields_lift hok .bound e).bind fun (front, e) ⟨hfront, he⟩ => ?_
      refine (yields_declarators hok pos kind ds).bind fun rest hrest => .pure ?_
      exact everywhereIn_append.mpr
        ⟨hfront, he.declare fun n hn => hok.plain n (htarget n hn), hrest⟩

theorem yields_stmts (hok : Covers ok) : (ss : List Stmt) → Yields (stmts ss) (Stmt.EverywhereIn (NamesFit ok))
  | [] => .pure trivial
  | s :: ss => (yields_stmt hok s).bind fun _ hs => (yields_stmts hok ss).bind fun _ hss =>
      .pure (everywhereIn_append.mpr ⟨hs, hss⟩)

end

/-- The normal form of a program has only names that a normal program may have. -/
theorem namesFit_of_normalize (hok : Covers ok) {source p : Program} (h : normalize source = .ok p) :
    Stmt.EverywhereIn (NamesFit ok) p := by
  obtain ⟨ν, hrun⟩ := run'_eq_ok_iff.mp h
  exact yields_stmts hok source _ _ _ hrun

end TraceLoom.Script
