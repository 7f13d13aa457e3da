import TraceLoom.Proofs.Instrument.Weaving
import TraceLoom.Proofs.Script.NormalShape

/-!
What instrumentation finds fault with.  A normal program may still be refused, for the names it
uses or for what it does with properties and labels, but not because of its form: declarations,
calls, assignments and functions stand where instrumentation expects them.
-/

namespace TraceLoom

open Script Instrument

/-- Errors about programs that are not in normal form. -/
def InstrumentError.IsFormal : InstrumentError → Prop
  | .unsupported .severalDeclarators _ | .unsupported (.compoundAssign _) _
  | .unsupported .bareCall _ => True
  | .unsupported (.nested form) _ =>
    form ∈ ["call expression", "assignment expression", "update expression", "function expression"]
  | _ => False

/-- A step does not find fault with the form of a program. -/
def Accepts {σ α : Type} (m : StateT σ (Except InstrumentError) α) : Prop :=
  ∀ s e, m.run s = .error e → ¬ e.IsFormal

namespace Accepts

variable {σ α β : Type} {m : StateT σ (Except InstrumentError) α}

theorem pure (a : α) : Accepts (pure a : StateT σ (Except InstrumentError) α) :=
  fun _ _ h => nomatch h

/-- What comes after a refusal does not matter. -/
theorem throw_bind {e : InstrumentError} {f : α → StateT σ (Except InstrumentError) β}
    (he : ¬ e.IsFormal) : Accepts (throw e >>= f) := by
  intro s e' h
  cases h
  exact he

theorem throw {e : InstrumentError} (he : ¬ e.IsFormal) :
    Accepts (throw e : StateT σ (Except InstrumentError) α) := by
  intro s e' h
  cases h
  exact he

theorem bind {f : α → StateT σ (Except InstrumentError) β} (h : Accepts m)
    (hf : ∀ a, Accepts (f a)) : Accepts (m >>= f) := by
  intro s e hrun
  rw [StateT.run_bind] at hrun
  cases hm : m.run s with
  | error e' =>
      rw [hm] at hrun
      cases hrun
      exact h s e hm
  | ok r =>
      rw [hm] at hrun
      exact hf r.1 r.2 e hrun

theorem get : Accepts (get : StateT σ (Except InstrumentError) σ) :=
  fun _ _ h => nomatch h

theorem set (s : σ) : Accepts (set s : StateT σ (Except InstrumentError) PUnit) :=
  fun _ _ h => nomatch h

theorem modify (f : σ → σ) : Accepts (modify f : StateT σ (Except InstrumentError) PUnit) :=
  fun _ _ h => nomatch h

theorem liftM {x : Except InstrumentError α} (hx : ∀ e, x = .error e → ¬ e.IsFormal) :
    Accepts (liftM x : StateT σ (Except InstrumentError) α) := by
  intro s e h
  cases x with
  | error e' =>
      cases h
      exact hx e rfl
  | ok a => cases h

theorem forM {xs : List β} {f : β → StateT σ (Except InstrumentError) PUnit}
    (hf : ∀ x, Accepts (f x)) : Accepts (xs.forM f) := by
  induction xs with
  | nil => exact pure _
  | cons x xs ih => exact (hf x).bind fun _ => ih

end Accepts

/-! ## Expressions -/

namespace Lower

variable {l : Lower}

theorem accepts_reference (n : String) (pos : Position) : Accepts (l.reference n pos) := by
  unfold reference
  split
  · exact .pure _
  · split
    · exact .pure _
    · exact Accepts.get.bind fun _ => (Accepts.set _).bind fun _ => .pure _

mutual

theorem accepts_expr : (e : Expr) → e.IsSimple → Accepts (l.expr e)
  | .number .., _ | .string .., _ | .boolean .., _ => .pure _
  | .null _, _ => .throw (by simp [InstrumentError.IsFormal])
  | .name pos n, _ => accepts_reference n pos
  | .array _ items, h => (accepts_exprs items h).bind fun _ => .pure _
  | .object _ entries, h => (accepts_fields entries h).bind fun _ => .pure _
  | .member _ object _, h => (accepts_expr object h).bind fun _ => .pure _
  | .unary _ _ operand, h => (accepts_expr operand h).bind fun _ => .pure _
  | .index _ object index, h =>
      (accepts_expr object h.1).bind fun _ => (accepts_expr index h.2).bind fun _ => .pure _
  | .binary _ _ left right, h =>
      (accepts_expr left h.1).bind fun _ => (accepts_expr right h.2).bind fun _ => .pure _

theorem accepts_exprs : (es : List Expr) → Expr.AreSimple es → Accepts (l.exprs es)
  | [], _ => .pure _
  | e :: es, h => (accepts_expr e h.1).bind fun _ => (accepts_exprs es h.2).bind fun _ => .pure _

theorem accepts_fields : (es : List (String × Expr)) → Expr.HasSimpleValues es →
    Accepts (l.fields es)
  | [], _ => .pure _
  | (_, e) :: es, h =>
      (accepts_expr e h.1).bind fun _ => (accepts_fields es h.2).bind fun _ => .pure _

end

theorem accepts_callee {e : Expr} (h : e.IsSimple) : Accepts (l.callee e) := by
  unfold callee
  split
  · exact accepts_reference _ _
  · exact .throw (by simp [InstrumentError.IsFormal])
  · exact .throw (by simp [InstrumentError.IsFormal])
  · rename_i object _ _ _
    exact (accepts_expr object h).bind fun _ => .pure _
  · exact .throw (by simp [InstrumentError.IsFormal])

theorem accepts_target {e : Expr} (h : e.IsSimple) : Accepts (l.target e) := by
  unfold target
  split
  · split
    · exact .throw (by simp [InstrumentError.IsFormal])
    · exact accepts_reference _ _
  · split
    · exact .throw (by simp [InstrumentError.IsFormal])
    · rename_i object _ _
      exact (accepts_expr object h).bind fun _ => .pure _
  · rename_i pos object index
    have hparts : Accepts (do
        let object ← l.expr object
        let index ← l.expr index
        return l.builder "index" [object, index]) :=
      (accepts_expr object h.1).bind fun _ => (accepts_expr index h.2).bind fun _ => .pure _
    split
    · exact .throw (by simp [InstrumentError.IsFormal])
    · refine Accepts.get.bind fun _ => ?_
      dsimp only
      split
      · exact .throw_bind (e := .unsupported .capturedIndexWrite pos) id
      · exact hparts
  · exact .throw (by simp [InstrumentError.IsFormal])

end Lower

/-! ## Statements -/

namespace Instrument

variable {l : Lower} {place : Place}

theorem accepts_lowered {α : Type} {m : Lowering α} (h : Accepts m) : Accepts (lowered m) := by
  refine Accepts.get.bind fun state => ?_
  refine Accepts.bind ?_ fun _ => (Accepts.set _).bind fun _ => .pure _
  exact .liftM fun e he => h state.names e he

theorem accepts_names : Accepts names :=
  Accepts.get.bind fun _ => .pure _

theorem accepts_setNames (ν : Names) : Accepts (setNames ν) :=
  .modify _

theorem accepts_freshTest : Accepts freshTest :=
  Accepts.get.bind fun _ => (Accepts.set _).bind fun _ => .pure _

theorem accepts_inScope {α : Type} {m : Weaving α} (h : Accepts m) : Accepts (inScope m) :=
  accepts_names.bind fun _ => h.bind fun _ => accepts_names.bind fun _ =>
    (accepts_setNames _).bind fun _ => .pure _

theorem accepts_checkBinding (pos : Position) (n : String) : Accepts (checkBinding l pos n) := by
  unfold checkBinding
  split
  · exact .throw (by simp [InstrumentError.IsFormal])
  · exact .pure _

theorem accepts_bindDeclared (ss : List Stmt) : Accepts (bindDeclared l ss) :=
  .forM fun _ => .forM fun _ => (accepts_checkBinding _ _).bind fun _ => .modify _

theorem accepts_join (ν other : Names) :
    Accepts (liftM (ν.join other) : Weaving Names) := by
  refine .liftM fun e he => ?_
  induction other generalizing ν with
  | nil => cases he
  | cons entry rest ih =>
      obtain ⟨name, sighting⟩ := entry
      rw [Names.join] at he
      split at he
      · split at he
        · exact ih _ he
        · cases he
          exact id
      · exact ih _ he

theorem accepts_binding {name : String} {pos : Position} {m : Weaving (List Stmt)} (h : Accepts m) :
    Accepts (binding name pos m) :=
  h.bind fun _ => (Accepts.modify _).bind fun _ => .pure _

theorem accepts_call (name : String) {callee : Expr} {args : List Expr} (kept : Stmt)
    (hcallee : callee.IsSimple) (hargs : Expr.AreSimple args) :
    Accepts (call l name callee args kept) := by
  have htraced := accepts_lowered (Lower.accepts_exprs (l := l) args hargs)
  unfold call
  split
  · exact .pure _
  · refine htraced.bind fun _ => ?_
    dsimp only
    split <;> exact .pure _
  · rename_i object method hkind
    obtain ⟨pos, rfl⟩ := classify_method hkind
    have hobject : object.IsSimple := hcallee
    exact (accepts_lowered (Lower.accepts_expr object hobject)).bind fun _ =>
      htraced.bind fun _ => .pure _
  · exact (accepts_lowered (Lower.accepts_callee hcallee)).bind fun _ =>
      htraced.bind fun _ => .pure _

theorem accepts_expression {pos : Position} {e : Expr} (kept : Stmt)
    (h : Stmt.IsNormal (.expr pos e)) : Accepts (expression l e kept) := by
  cases e with
  | assign apos op target value =>
      obtain ⟨rfl, htarget, hvalue⟩ := h
      exact (accepts_lowered (Lower.accepts_expr value hvalue)).bind fun _ =>
        (accepts_lowered (Lower.accepts_target htarget)).bind fun _ => .pure _
  | update upos op isPrefix target =>
      cases target with
      | name => exact (accepts_lowered (Lower.accepts_reference _ _)).bind fun _ => .pure _
      | _ => exact .throw (by simp [InstrumentError.IsFormal])
  | call | function => exact h.elim
  | _ => exact (accepts_lowered (Lower.accepts_expr _ h)).bind fun _ => .pure _

theorem accepts_function {params : List String} {self : Option (String × String)} {pos : Position}
    {body : Weaving (List Stmt)} (h : Accepts body) : Accepts (function l params self pos body) := by
  refine (Accepts.forM fun _ => accepts_checkBinding _ _).bind fun _ => ?_
  refine (Accepts.forM fun _ => accepts_checkBinding _ _).bind fun _ => ?_
  refine accepts_names.bind fun _ => (accepts_setNames _).bind fun _ => h.bind fun _ => ?_
  exact accepts_names.bind fun _ => (accepts_setNames _).bind fun _ => .pure _

theorem accepts_block {place : Place} {body : List Stmt} (h : Accepts (stmts l place body)) :
    Accepts (do bindDeclared l body; stmts l place body) :=
  (accepts_bindDeclared body).bind fun _ => h

mutual

theorem accepts_stmt {place : Place} (s : Stmt) (h : s.Everywhere Stmt.IsNormal) :
    Accepts (stmt l place s) := by
  have hhere := h.here
  match s with
  | .declare _ _ [] => exact hhere.elim
  | .declare _ _ ((.name _, _) :: _ :: _) | .declare _ _ ((.array _, _) :: _ :: _) =>
      exact absurd hhere (by simp [Stmt.IsNormal])
  | .declare _ _ [(.array _, _)] => exact .throw (by simp [InstrumentError.IsFormal])
  | .declare _ _ [(.name _, none)] => exact accepts_binding (.pure _)
  | .declare pos kind [(.name name, some e)] =>
      cases e with
      | call cpos callee args => exact accepts_binding (accepts_call name _ hhere.1 hhere.2)
      | function fpos self params body =>
          exact accepts_binding ((accepts_function (accepts_block (accepts_stmts body h.2))).bind fun _ => .pure _)
      | _ =>
          exact accepts_binding
            ((accepts_lowered (Lower.accepts_expr _ hhere)).bind fun _ => .pure _)
  | .function pos name params body =>
      exact (accepts_function (accepts_block (accepts_stmts body h.2))).bind fun _ => .pure _
  | .ifElse pos test consequent none =>
      refine (accepts_lowered (Lower.accepts_expr test hhere)).bind fun _ => ?_
      refine accepts_freshTest.bind fun _ => accepts_names.bind fun _ => ?_
      refine (accepts_inScope (accepts_block (accepts_stmts consequent h.2))).bind fun _ => ?_
      exact accepts_names.bind fun _ => (accepts_join _ _).bind fun _ =>
        (accepts_setNames _).bind fun _ => .pure _
  | .ifElse pos test consequent (some alternate) =>
      refine (accepts_lowered (Lower.accepts_expr test hhere)).bind fun _ => ?_
      refine accepts_freshTest.bind fun _ => accepts_names.bind fun _ => ?_
      refine (accepts_inScope (accepts_block (accepts_stmts consequent h.2.1))).bind fun _ => ?_
      refine accepts_names.bind fun _ => (accepts_setNames _).bind fun _ => ?_
      refine (accepts_inScope (accepts_block (accepts_stmts alternate h.2.2))).bind fun _ => ?_
      exact accepts_names.bind fun _ => (accepts_join _ _).bind fun _ =>
        (accepts_setNames _).bind fun _ => .pure _
  | .whileDo pos test body =>
      exact (accepts_lowered (Lower.accepts_expr test hhere)).bind fun _ =>
        (accepts_inScope (accepts_block (accepts_stmts body h.2))).bind fun _ => .pure _
  | .labeled pos label body =>
      exact (accepts_inScope (accepts_block (accepts_stmts body h.2))).bind fun _ => .pure _
  | .breakTo pos none => exact .throw (by simp [InstrumentError.IsFormal])
  | .breakTo pos (some label) =>
      unfold stmt
      split
      · exact .pure _
      · exact .throw (by simp [InstrumentError.IsFormal])
  | .returnWith pos value =>
      by_cases hplace : place.inFunction
      · cases value with
        | none =>
            simp only [stmt, hplace]
            exact .pure _
        | some value =>
            simp only [stmt, hplace]
            exact (accepts_lowered (Lower.accepts_expr value hhere)).bind fun _ => .pure _
      · cases value <;> simp only [stmt, hplace] <;> exact .throw_bind (e := .returnOutsideFunction pos) id
  | .block pos body => exact (accepts_inScope (accepts_block (accepts_stmts body h.2))).bind fun _ => .pure _
  | .expr pos e => exact accepts_expression _ hhere
termination_by sizeOf s

theorem accepts_stmts {place : Place} (ss : List Stmt) (h : IsNormalIn ss) :
    Accepts (stmts l place ss) := by
  cases ss with
  | nil => exact .pure _
  | cons s ss =>
      exact (accepts_stmt s h.1).bind fun _ => (accepts_stmts ss h.2).bind fun _ => .pure _
termination_by sizeOf ss

end

/-- Whatever is wrong with a normal program, it is not its form. -/
theorem not_isFormal_of_instrument {options : InstrumentOptions} {primitives : Primitives}
    {p : Program} {e : InstrumentError} (hp : IsNormalIn p)
    (h : instrument options primitives p = .error e) : ¬ e.IsFormal := by
  have hprogram : Accepts (program ⟨options, primitives⟩ p) := by
    refine (accepts_bindDeclared p).bind fun _ => (accepts_stmts p hp).bind fun _ => ?_
    refine accepts_names.bind fun _ => ?_
    split
    · exact .throw (by simp [InstrumentError.IsFormal])
    · exact .pure _
  have hrun := h
  unfold instrument at hrun
  rw [StateT.run'_eq] at hrun
  refine hprogram ⟨.none, 0⟩ e ?_
  cases hresult : (program ⟨options, primitives⟩ p).run ⟨.none, 0⟩ with
  | error e' =>
      rw [hresult] at hrun
      cases hrun
      rfl
  | ok r =>
      rw [hresult] at hrun
      cases hrun

end Instrument

/-! ## Normal programs -/

/-- What normalizing is for: it gives normal programs, in which instrumentation finds no fault of
form, and it keeps a program that is normal already. -/
theorem normalize_suits_instrument (source : Program) :
    (∀ p, normalize source = .ok p → IsNormalIn p ∧
      ∀ options primitives e, instrument options primitives p = .error e → ¬ e.IsFormal) ∧
    (Stmt.EverywhereIn IsFinished source →
      ∃ p, normalize source = .ok p ∧ Stmt.eraseList p = Stmt.eraseList source) := by
  refine ⟨fun p hnormal => ?_, normalize_of_isFinished⟩
  have hshape := isNormalIn_of_normalize hnormal
  exact ⟨hshape, fun _ _ _ hrefused => Instrument.not_isFormal_of_instrument hshape hrefused⟩

/-- `let f = function (x) { x += 1; return x; }; let a = f(f(2)), b = a;` -/
def nestedCalls : Program :=
  [.declare .none .ofLet [(.name "f", some (.function .none none ["x"]
      [.ofExpr (.assign .none .addAssign (.ident "x") (.num 1.0)),
        .returnWith .none (some (.ident "x"))]))],
    .declare .none .ofLet
      [(.name "a", some (.call .none (.ident "f") [.call .none (.ident "f") [.num 2.0]])),
        (.name "b", some (.ident "a"))]]

/-- Its normal form, up to the name of the result of the inner call. -/
def flatCalls (inner : String) : Program :=
  [.letNamed "f" (.function .none none ["x"]
      [.ofExpr (.assign .none .assign (.ident "x") (.binary .none .add (.ident "x") (.num 1.0))),
        .returnWith .none (some (.ident "x"))]),
    .letNamed inner (.call .none (.ident "f") [.num 2.0]),
    .letNamed "a" (.call .none (.ident "f") [.ident inner]),
    .letNamed "b" (.ident "a")]

theorem normalize_suits_instrument_calls :
    (normalize nestedCalls = .ok (flatCalls "$t0") ∧ IsNormalIn (flatCalls "$t0") ∧
      ∀ options primitives e,
        instrument options primitives (flatCalls "$t0") = .error e → ¬ e.IsFormal) ∧
    ∃ p, normalize (flatCalls "t") = .ok p ∧ Stmt.eraseList p = Stmt.eraseList (flatCalls "t") := by
  have hnormal : normalize nestedCalls = .ok (flatCalls "$t0") := by with_unfolding_all rfl
  refine ⟨⟨hnormal, (normalize_suits_instrument nestedCalls).1 _ hnormal⟩,
    (normalize_suits_instrument (flatCalls "t")).2 ?_⟩
  have hfree : AreFree ["f", "x", "t", "a", "b"] := by
    simp [AreFree, NormalForm.isReserved, String.startsWith_string_eq_false_iff]
  have hnames {s : Stmt} (hs : Instrument.declared s ++ s.params ++ s.freeNames Option.toList ⊆
      ["f", "x", "t", "a", "b"]) : NamesFit (fun n => NormalForm.isReserved n = false) s :=
    fun n hn => hfree n (hs hn)
  refine ⟨⟨⟨trivial, hnames ?_⟩, ⟨⟨rfl, trivial, trivial, trivial⟩, hnames ?_⟩,
    ⟨trivial, hnames ?_⟩, trivial⟩, ⟨⟨trivial, trivial, trivial⟩, hnames ?_⟩,
    ⟨⟨trivial, trivial, trivial⟩, hnames ?_⟩, ⟨trivial, hnames ?_⟩, trivial⟩
  all_goals decide

end TraceLoom
