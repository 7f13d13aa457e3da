import TraceLoom.Proofs.Instrument.Lowering
import TraceLoom.Proofs.Instrument.Resolution
import TraceLoom.Instrument.Weave

/-!
The branches of a conditional never disagree on whose name it is.  Every form of statement leaves
the names as resolving some names would, since what it declares is bound before and forgotten
after, and sequences of uses can always be joined.
-/

namespace TraceLoom

open Script

/-- Whether an error says that two branches disagree on a name. -/
def InstrumentError.IsConflict : InstrumentError → Prop
  | .captureConflict _ _ => True
  | _ => False

/-! ## Runs without conflicts -/

/-- A run that succeeds ends as `post` says, and one that fails does not fail for a conflict. -/
def Ensures {σ α : Type} (m : StateT σ (Except InstrumentError) α) (post : α → σ → Prop)
    (s : σ) : Prop :=
  match m.run s with
  | .ok (a, s') => post a s'
  | .error e => ¬ e.IsConflict

namespace Ensures

variable {σ α β : Type} {m : StateT σ (Except InstrumentError) α} {post post' : α → σ → Prop}
  {s : σ}

theorem throw {e : InstrumentError} (he : ¬ e.IsConflict) :
    Ensures (throw e : StateT σ (Except InstrumentError) α) post s :=
  he

theorem bind {f : α → StateT σ (Except InstrumentError) β} {post : β → σ → Prop}
    (h : Ensures m (fun a => Ensures (f a) post) s) : Ensures (m >>= f) post s := by
  unfold Ensures at h ⊢
  rw [StateT.run_bind]
  rcases hm : m.run s with e | ⟨a, s'⟩
  · rw [hm] at h
    exact h
  · rw [hm] at h
    exact h

theorem mono (h : Ensures m post s) (himp : ∀ a s', post a s' → post' a s') :
    Ensures m post' s := by
  unfold Ensures at h ⊢
  split at h
  · exact himp _ _ h
  · exact h

theorem of_run {a : α} {s' : σ} (h : Ensures m post s) (hrun : m.run s = .ok (a, s')) :
    post a s' := by
  rw [Ensures, hrun] at h
  exact h

theorem not_isConflict {e : InstrumentError} (h : Ensures m post s)
    (hrun : m.run s = .error e) : ¬ e.IsConflict := by
  rw [Ensures, hrun] at h
  exact h

end Ensures

/-! ## Steps that only resolve names -/

namespace Names

/-- No name occurs twice, and some are names of the function. -/
structure Ready (ν : Names) (own : List String) : Prop where
  nodup : (Fields.keys ν).Nodup
  own : ∀ n ∈ own, ν.lookup n = some .own

theorem Ready.resolveAll {ν : Names} {own : List String} (h : ν.Ready own)
    (used : List (String × Position)) : (ν.resolveAll used).Ready own :=
  ⟨(uses_resolveAll ν used).nodup h.nodup, fun n hn => (uses_resolveAll ν used).keeps (h.own n hn)⟩

/-- After two sequences of uses a name that is known in both is seen alike. -/
theorem Uses.agree {ν yes no : Names} {used more : List String} {n : String} {b b' : Binding}
    (hyes : ν.Uses used yes) (hno : ν.Uses more no) (hb : yes.lookup n = some b)
    (hb' : no.lookup n = some b') : b = b' := by
  cases hn : ν.lookup n with
  | some b₀ =>
      rw [hyes.keeps hn] at hb
      rw [hno.keeps hn] at hb'
      exact Option.some.inj (hb.symm.trans hb')
  | none =>
      -- what was unknown before is captured by both
      rw [hyes.adds hn] at hb
      rw [hno.adds hn] at hb'
      split at hb
      · split at hb'
        · exact Option.some.inj (hb.symm.trans hb')
        · cases hb'
      · cases hb

theorem fst_closeOver (ν inner : Names) : (ν.closeOver inner).1 = ν.resolveAll inner.captures := by
  have hfold : ∀ (captures : List (String × Position)) (ν : Names)
      (sources : List (String × Binding)),
      (captures.foldl (fun acc capture =>
        ((acc.1.resolve capture.1 capture.2).2,
          acc.2 ++ [(capture.1, (acc.1.resolve capture.1 capture.2).1)])) (ν, sources)).1 =
        ν.resolveAll captures := by
    intro captures
    induction captures with
    | nil => exact fun _ _ => rfl
    | cons capture captures ih => exact fun _ _ => ih _ _
  exact hfold inner.captures ν []

end Names

/-- Where the names are ready, a step resolves some names and does nothing else to them. -/
def Resolves {σ α : Type} (view : σ → Names) (own : List String)
    (m : StateT σ (Except InstrumentError) α) : Prop :=
  ∀ s, (view s).Ready own →
    Ensures m (fun _ s' => ∃ used, view s' = (view s).resolveAll used) s

namespace Resolves

variable {σ α β : Type} {view : σ → Names} {own : List String}
  {m : StateT σ (Except InstrumentError) α}

theorem pure (a : α) : Resolves view own (pure a) :=
  fun _ _ => ⟨[], rfl⟩

theorem get : Resolves view own (get : StateT σ (Except InstrumentError) σ) :=
  fun _ _ => ⟨[], rfl⟩

/-- What comes after a refusal does not matter. -/
theorem throw_bind {e : InstrumentError} {f : α → StateT σ (Except InstrumentError) β}
    (he : ¬ e.IsConflict) : Resolves view own (throw e >>= f) :=
  fun _ _ => Ensures.bind (Ensures.throw he)

theorem throw {e : InstrumentError} (he : ¬ e.IsConflict) :
    Resolves view own (throw e : StateT σ (Except InstrumentError) α) :=
  fun _ _ => Ensures.throw he

theorem bind {f : α → StateT σ (Except InstrumentError) β} (h : Resolves view own m)
    (hf : ∀ a, Resolves view own (f a)) : Resolves view own (m >>= f) := by
  intro s hs
  refine .bind ((h s hs).mono ?_)
  rintro a s' ⟨used, hused⟩
  refine (hf a s' (hused ▸ hs.resolveAll used)).mono ?_
  rintro b s'' ⟨more, hmore⟩
  exact ⟨used ++ more, by rw [hmore, hused, Names.resolveAll_append]⟩

theorem forM {xs : List β} {f : β → StateT σ (Except InstrumentError) PUnit}
    (hf : ∀ x, Resolves view own (f x)) : Resolves view own (xs.forM f) := by
  induction xs with
  | nil => exact pure _
  | cons x xs ih => exact (hf x).bind fun _ => ih

end Resolves

/-! ## Expressions -/

namespace Lower

variable {l : Lower} {own : List String}

theorem resolves_reference (n : String) (pos : Position) :
    Resolves id own (l.reference n pos) := by
  unfold reference
  split
  · exact .pure _
  · split
    · exact .pure _
    · exact fun ν _ => ⟨[(n, pos)], rfl⟩

mutual

theorem resolves_expr : (e : Expr) → Resolves id own (l.expr e)
  | .number .. | .string .. | .boolean .. => .pure _
  | .name pos n => resolves_reference n pos
  | .array _ items => (resolves_exprs items).bind fun _ => .pure _
  | .object _ entries => (resolves_fields entries).bind fun _ => .pure _
  | .member _ object _ => (resolves_expr object).bind fun _ => .pure _
  | .unary _ _ operand => (resolves_expr operand).bind fun _ => .pure _
  | .index _ object index =>
      (resolves_expr object).bind fun _ => (resolves_expr index).bind fun _ => .pure _
  | .binary _ _ left right =>
      (resolves_expr left).bind fun _ => (resolves_expr right).bind fun _ => .pure _
  | .null _ | .function .. | .call .. | .assign .. | .update .. => .throw id

theorem resolves_exprs : (es : List Expr) → Resolves id own (l.exprs es)
  | [] => .pure _
  | e :: es => (resolves_expr e).bind fun _ => (resolves_exprs es).bind fun _ => .pure _

theorem resolves_fields : (es : List (String × Expr)) → Resolves id own (l.fields es)
  | [] => .pure _
  | (_, e) :: es => (resolves_expr e).bind fun _ => (resolves_fields es).bind fun _ => .pure _

end

theorem resolves_callee (e : Expr) : Resolves id own (l.callee e) := by
  unfold callee
  split
  · exact resolves_reference _ _
  · exact .throw id
  · exact .throw id
  · exact (resolves_expr _).bind fun _ => .pure _
  · exact .throw id

theorem resolves_target (e : Expr) : Resolves id own (l.target e) := by
  unfold target
  split
  · split
    · exact .throw id
    · exact resolves_reference _ _
  · split
    · exact .throw id
    · exact (resolves_expr _).bind fun _ => .pure _
  · rename_i pos object index
    split
    · exact .throw id
    · refine Resolves.get.bind fun _ => ?_
      dsimp only
      split
      · exact .throw_bind (e := .unsupported .capturedIndexWrite pos) id
      · exact (resolves_expr object).bind fun _ => (resolves_expr index).bind fun _ => .pure _
  · exact .throw id

end Lower

/-! ## Scopes -/

namespace Instrument

variable {l : Lower} {own : List String}

theorem resolves_lowered {α : Type} {m : Lowering α} (h : Resolves id own m) :
    Resolves State.names own (lowered m) := by
  intro s hs
  have hrun := h s.names hs
  unfold Ensures at hrun
  rcases hm : m.run s.names with e | ⟨a, ν⟩
  all_goals
    rw [hm] at hrun
    refine .bind ?_
    show Ensures (liftM (m.run s.names) >>= _) _ s
    rw [hm]
    exact hrun

theorem ensures_names_bind {α : Type} {f : Names → Weaving α} {post : α → State → Prop} {s : State}
    (h : Ensures (f s.names) post s) : Ensures (names >>= f) post s :=
  h

theorem ensures_setNames_bind {α : Type} {ν : Names} {f : Unit → Weaving α}
    {post : α → State → Prop} {s : State} (h : Ensures (f ()) post ⟨ν, s.tests⟩) :
    Ensures (setNames ν >>= f) post s :=
  h

theorem resolves_freshTest : Resolves State.names own freshTest :=
  fun _ _ => ⟨[], rfl⟩

theorem resolves_checkBinding (pos : Position) (n : String) :
    Resolves State.names own (checkBinding l pos n) := by
  unfold checkBinding
  split
  · exact .throw id
  · exact .pure _

/-- A name that is bound before a statement is bound already after it. -/
theorem resolves_binding {name : String} {pos : Position} {m : Weaving (List Stmt)}
    (hname : name ∈ own) (h : Resolves State.names own m) :
    Resolves State.names own (binding name pos m) := by
  intro s hs
  refine .bind ((h s hs).mono ?_)
  rintro a s' ⟨used, hused⟩
  have hready : s'.names.Ready own := hused ▸ hs.resolveAll used
  exact ⟨used, (if_pos (hready.own name hname)).trans hused⟩

/-- The names that statements declare, with their positions. -/
def declarations (body : List Stmt) : List (String × Position) :=
  body.flatMap fun s => (declared s).map (·, s.pos)

theorem map_fst_declarations (body : List Stmt) :
    (declarations body).map (·.1) = declaredIn body := by
  simp [declarations, declaredIn, List.map_flatMap, Function.comp_def]

theorem ensures_bindNames (pos : Position) (ns : List String) (s : State) :
    Ensures (ns.forM fun name => do
      checkBinding l pos name
      modify fun state => { state with names := state.names.bind name pos })
      (fun _ s' => s'.names = s.names.bindAll (ns.map (·, pos))) s := by
  induction ns generalizing s with
  | nil => rfl
  | cons n ns ih =>
      refine .bind (.bind ?_)
      unfold checkBinding
      split
      · exact .throw id
      · exact ih _

/-- All declarations of a block are bound at its start. -/
theorem ensures_bindDeclared (body : List Stmt) (s : State) :
    Ensures (bindDeclared l body)
      (fun _ s' => s'.names = s.names.bindAll (declarations body)) s := by
  induction body generalizing s with
  | nil => rfl
  | cons first body ih =>
      refine .bind ((ensures_bindNames first.pos (declared first) s).mono fun _ s' hs' => ?_)
      refine (ih s').mono fun _ s'' hs'' => ?_
      rw [hs'', hs', ← Names.bindAll_append]
      rfl

/-- In new names that are distinct, a step binds some and then resolves others. -/
def Opens {α : Type} (m : Weaving α) : Prop :=
  ∀ s : State, (Fields.keys s.names).Nodup →
    Ensures m (fun _ s' => ∃ bound used, s'.names = (s.names.bindAll bound).resolveAll used) s

theorem ready_bindAll {ν : Names} (hν : (Fields.keys ν).Nodup) (body : List Stmt) :
    (ν.bindAll (declarations body)).Ready (declaredIn body) := by
  have hbinds := Names.binds_bindAll ν (declarations body)
  refine ⟨hbinds.nodup hν, fun n hn => ?_⟩
  rw [hbinds.lookup, map_fst_declarations, if_pos hn]

theorem opens_block {place : Place} {body : List Stmt}
    (h : Resolves State.names (declaredIn body) (stmts l place body)) :
    Opens (do bindDeclared l body; stmts l place body) := by
  intro s hs
  refine .bind ((ensures_bindDeclared body s).mono fun _ s' hs' => ?_)
  refine (h s' (hs' ▸ ready_bindAll hs body)).mono ?_
  rintro _ s'' ⟨used, hused⟩
  exact ⟨declarations body, used, by rw [hused, hs']⟩

/-- What a scope binds is forgotten after it. -/
theorem resolves_inScope {α : Type} {m : Weaving α} (h : Opens m) :
    Resolves State.names own (inScope m) := by
  intro s hs
  refine ensures_names_bind (.bind ((h s hs.nodup).mono ?_))
  rintro a s' ⟨bound, used, hs'⟩
  refine ⟨Names.outside bound used, ?_⟩
  show s'.names.leave s.names = _
  rw [hs']
  exact Names.afterScope_eq s.names bound used

/-- A function uses what its body captures. -/
theorem resolves_function {params : List String} {self : Option (String × String)} {pos : Position}
    {body : Weaving (List Stmt)} (h : Opens body) :
    Resolves State.names own (function l params self pos body) := by
  refine (Resolves.forM fun _ => resolves_checkBinding _ _).bind fun _ => ?_
  refine (Resolves.forM fun _ => resolves_checkBinding _ _).bind fun _ => ?_
  intro s hs
  have hparams := (Names.binds_ofParams params pos).nodup List.nodup_nil
  refine ensures_names_bind (ensures_setNames_bind ?_)
  refine .bind ((h ⟨Names.ofParams params pos, s.tests⟩ hparams).mono fun _ s' _ => ?_)
  refine ensures_names_bind ?_
  cases self with
  | none => exact ⟨s'.names.captures, Names.fst_closeOver _ _⟩
  | some self => exact ⟨(s'.names.forget self.1).1.captures, Names.fst_closeOver _ _⟩

/-! ## Statements -/

/-- The statements of a branch in a scope of their own; a branch may be missing. -/
def branch (l : Lower) (place : Place) : Option (List Stmt) → Weaving (List Stmt)
  | none => pure []
  | some body => inScope (do
      bindDeclared l body
      stmts l place body)

theorem join_after_setNames {α : Type} (before after : Names) (f : Names → Weaving α) :
    (do
      setNames before
      let joined ← after.join (← names)
      setNames joined
      f joined) = (do
      let joined ← after.join before
      setNames joined
      f joined) := by
  funext s
  show StateT.run (do
    let joined ← liftM (after.join before)
    setNames joined
    f joined) ⟨before, s.tests⟩ = _
  cases after.join before <;> rfl

/-- A conditional without an alternative joins the names before it as if a branch had left them. -/
theorem stmt_ifElse {place : Place} (pos : Position) (test : Expr) (consequent : List Stmt)
    (alternate : Option (List Stmt)) :
    stmt l place (.ifElse pos test consequent alternate) = (do
      let traced ← lowered (l.expr test)
      let name ← freshTest
      let before ← names
      let yes ← branch l place (some consequent)
      let afterYes ← names
      setNames before
      let no ← branch l place alternate
      let joined ← afterYes.join (← names)
      setNames joined
      return [.letNamed name traced,
        .ifElse pos test (traceCall l "traceIfTrue" [.ident name] :: yes)
          (some (traceCall l "traceIfFalse" [.ident name] :: no)),
        exitBlock l]) := by
  cases alternate with
  | none =>
      simp only [branch, pure_bind, join_after_setNames]
      rfl
  | some alternate => rfl

theorem resolves_call (name : String) (callee : Expr) (args : List Expr) (kept : Stmt) :
    Resolves State.names own (call l name callee args kept) := by
  have hargs : Resolves State.names own (lowered (l.exprs args)) :=
    resolves_lowered (Lower.resolves_exprs args)
  unfold call
  split
  · exact .pure _
  · refine hargs.bind fun _ => ?_
    dsimp only
    split <;> exact .pure _
  · exact (resolves_lowered (Lower.resolves_expr _)).bind fun _ => hargs.bind fun _ => .pure _
  · exact (resolves_lowered (Lower.resolves_callee _)).bind fun _ => hargs.bind fun _ => .pure _

theorem resolves_expression (e : Expr) (kept : Stmt) :
    Resolves State.names own (expression l e kept) := by
  have hlowered : Resolves State.names own (lowered (l.expr e)) :=
    resolves_lowered (Lower.resolves_expr e)
  cases e with
  | assign pos op target value =>
      cases op with
      | assign =>
          exact (resolves_lowered (Lower.resolves_expr value)).bind fun _ =>
            (resolves_lowered (Lower.resolves_target target)).bind fun _ => .pure _
      | _ => exact .throw id
  | update pos op isPrefix target =>
      cases target with
      | name => exact (resolves_lowered (Lower.resolves_reference _ _)).bind fun _ => .pure _
      | _ => exact .throw id
  | call => exact .throw id
  | _ => exact hlowered.bind fun _ => .pure _

theorem stmt_several {place : Place} {pos : Position} {kind : DeclKind}
    (d d' : Pattern × Option Expr) (ds : List (Pattern × Option Expr)) :
    stmt l place (.declare pos kind (d :: d' :: ds)) =
      refuse (.unsupported .severalDeclarators pos) := by
  obtain ⟨_ | _, _ | e⟩ := d
  case name.some => cases e <;> rfl
  all_goals rfl

/-- Branches that only use names can be joined, whatever they use. -/
theorem resolves_ifElse {place : Place} {pos : Position} {test : Expr} {consequent : List Stmt}
    {alternate : Option (List Stmt)}
    (hyes : Resolves State.names own (branch l place (some consequent)))
    (hno : Resolves State.names own (branch l place alternate)) :
    Resolves State.names own (stmt l place (.ifElse pos test consequent alternate)) := by
  rw [stmt_ifElse]
  refine (resolves_lowered (Lower.resolves_expr test)).bind fun _ =>
    resolves_freshTest.bind fun _ s hs => ?_
  refine ensures_names_bind (.bind ((hyes s hs).mono ?_))
  rintro yes s' ⟨used, hused⟩
  refine ensures_names_bind (ensures_setNames_bind (.bind ((hno ⟨s.names, s'.tests⟩ hs).mono ?_)))
  rintro no s'' ⟨more, hmore⟩
  refine ensures_names_bind ?_
  show Ensures (liftM (s'.names.join s''.names) >>= _) _ _
  rw [hused, hmore, Names.join_resolveAll hs.nodup]
  exact ⟨used ++ more, (Names.resolveAll_append s.names used more).symm⟩

mutual

theorem resolves_stmt {place : Place} (s : Stmt) {own : List String}
    (hown : ∀ n ∈ declared s, n ∈ own) : Resolves State.names own (stmt l place s) := by
  match s with
  | .declare _ _ [] | .declare _ _ [(.array _, _)] => exact .throw id
  | .declare _ _ (d :: d' :: ds) => exact stmt_several d d' ds ▸ .throw id
  | .declare _ _ [(.name name, none)] =>
      exact resolves_binding (hown name (by simp [declared, Pattern.names])) (.pure _)
  | .declare pos kind [(.name name, some e)] =>
      have hname : name ∈ own := hown name (by simp [declared, Pattern.names])
      cases e with
      | call cpos callee args => exact resolves_binding hname (resolves_call name callee args _)
      | function fpos self params body =>
          exact resolves_binding hname ((resolves_function (opens_block
            (resolves_stmts body fun _ => id))).bind fun _ => .pure _)
      | _ =>
          exact resolves_binding hname
            ((resolves_lowered (Lower.resolves_expr _)).bind fun _ => .pure _)
  | .function pos name params body =>
      exact (resolves_function (opens_block (resolves_stmts body fun _ => id))).bind
        fun _ => .pure _
  | .ifElse pos test consequent none =>
      exact resolves_ifElse (resolves_inScope (opens_block (resolves_stmts consequent fun _ => id)))
        (.pure _)
  | .ifElse pos test consequent (some alternate) =>
      exact resolves_ifElse (resolves_inScope (opens_block (resolves_stmts consequent fun _ => id)))
        (resolves_inScope (opens_block (resolves_stmts alternate fun _ => id)))
  | .whileDo pos test body =>
      exact (resolves_lowered (Lower.resolves_expr test)).bind fun _ =>
        (resolves_inScope (opens_block (resolves_stmts body fun _ => id))).bind fun _ => .pure _
  | .labeled pos label body =>
      exact (resolves_inScope (opens_block (resolves_stmts body fun _ => id))).bind
        fun _ => .pure _
  | .breakTo pos none => exact .throw id
  | .breakTo pos (some label) =>
      unfold stmt
      split
      · exact .pure _
      · exact .throw id
  | .returnWith pos value =>
      by_cases hplace : place.inFunction
      · cases value with
        | none =>
            simp only [stmt, hplace]
            exact .pure _
        | some value =>
            simp only [stmt, hplace]
            exact (resolves_lowered (Lower.resolves_expr value)).bind fun _ => .pure _
      · cases value <;> simp only [stmt, hplace] <;>
          exact .throw_bind (e := .returnOutsideFunction pos) id
  | .block pos body =>
      exact (resolves_inScope (opens_block (resolves_stmts body fun _ => id))).bind
        fun _ => .pure _
  | .expr pos e => exact resolves_expression e _
termination_by sizeOf s

theorem resolves_stmts {place : Place} (ss : List Stmt) {own : List String}
    (hown : ∀ n ∈ declaredIn ss, n ∈ own) : Resolves State.names own (stmts l place ss) := by
  cases ss with
  | nil => exact .pure _
  | cons s ss =>
      rw [declaredIn, List.flatMap_cons, List.forall_mem_append] at hown
      exact (resolves_stmt s hown.1).bind fun _ =>
        (resolves_stmts ss hown.2).bind fun _ => .pure _
termination_by sizeOf ss

end

theorem resolves_branch (place : Place) (body : Option (List Stmt)) :
    Resolves State.names own (branch l place body) := by
  cases body with
  | none => exact .pure _
  | some body => exact resolves_inScope (opens_block (resolves_stmts body fun _ => id))

theorem ensures_program (p : Program) {s : State} (hs : (Fields.keys s.names).Nodup) :
    Ensures (program l p) (fun _ _ => True) s := by
  refine .bind ((ensures_bindDeclared p s).mono fun _ s' hs' => ?_)
  refine .bind ((resolves_stmts p (fun _ => id) s' (hs' ▸ ready_bindAll hs p)).mono ?_)
  refine fun _ s'' _ => ensures_names_bind ?_
  split
  · exact .throw id
  · trivial

/-- Instrumentation never finds branches in conflict, whatever the program, the options and the
primitives.  The names after two branches that were woven from the same names agree on every name
that both of them have: neither takes for its own what the other one captures. -/
theorem branches_agree :
    (∀ options primitives p name pos,
      instrument options primitives p ≠ .error (.captureConflict name pos)) ∧
    ∀ (l : Lower) (place : Place) (yes no : Option (List Stmt)) (s s₁ s₂ : State)
      (out out' : List Stmt), (Fields.keys s.names).Nodup →
      (branch l place yes).run s = .ok (out, s₁) →
      (branch l place no).run { s₁ with names := s.names } = .ok (out', s₂) →
      ∀ n b b', s₁.names.lookup n = some b → s₂.names.lookup n = some b' → b = b' := by
  refine ⟨fun options primitives p name pos h => ?_, ?_⟩
  · have hensures : Ensures (program ⟨options, primitives⟩ p) (fun _ _ => True) ⟨.none, 0⟩ :=
      ensures_program p List.nodup_nil
    rw [instrument, StateT.run'_eq] at h
    cases hrun : (program ⟨options, primitives⟩ p).run ⟨.none, 0⟩ with
    | ok r =>
        rw [hrun] at h
        cases h
    | error e =>
        rw [hrun] at h
        cases h
        exact hensures.not_isConflict hrun trivial
  · intro l place yes no s s₁ s₂ out out' hs hyes hno n b b' hb hb'
    have hready : s.names.Ready [] := ⟨hs, by simp⟩
    obtain ⟨used, hused⟩ := (resolves_branch place yes s hready).of_run hyes
    obtain ⟨more, hmore⟩ := (resolves_branch place no ⟨s.names, s₁.tests⟩ hready).of_run hno
    rw [hused] at hb
    rw [hmore] at hb'
    exact (Names.uses_resolveAll s.names used).agree (Names.uses_resolveAll s.names more) hb hb'

/-- `let a = x; x = a;` -/
def shadowingBranch : List Stmt :=
  [.letNamed "a" (.ident "x"), .ofExpr (.assign .none .assign (.ident "x") (.ident "a"))]

/-- `x = a;` -/
def capturingBranch : List Stmt :=
  [.ofExpr (.assign .none .assign (.ident "x") (.ident "a"))]

/-- `let a = ""; function f(x) { if (x) { let a = x; x = a; } else { x = a; } }` -/
def shadowing : Program :=
  [.letNamed "a" (.text ""),
    .function .none "f" ["x"] [.ifElse .none (.ident "x") shadowingBranch (some capturingBranch)]]

theorem branches_agree_shadowed :
    let l : Lower := ⟨.default, .default⟩
    let ν : Names := [("x", ⟨.own, .none⟩)]
    let ν' : Names := ν ++ [("a", ⟨.captured, .none⟩)]
    ((∃ q, instrument .default .default shadowing = .ok q) ∧
      ∀ name pos, instrument .default .default shadowing ≠ .error (.captureConflict name pos)) ∧
    ∃ out out', (Fields.keys ν).Nodup ∧
      (branch l .functionBody (some shadowingBranch)).run ⟨ν, 0⟩ = .ok (out, ⟨ν, 0⟩) ∧
      (branch l .functionBody (some capturingBranch)).run ⟨ν, 0⟩ = .ok (out', ⟨ν', 0⟩) ∧
      ∀ n b b', ν.lookup n = some b → ν'.lookup n = some b' → b = b' := by
  intro l ν ν'
  obtain ⟨out, hyes⟩ : ∃ out, (branch l .functionBody (some shadowingBranch)).run ⟨ν, 0⟩ =
      .ok (out, ⟨ν, 0⟩) := ⟨_, by with_unfolding_all rfl⟩
  obtain ⟨out', hno⟩ : ∃ out', (branch l .functionBody (some capturingBranch)).run ⟨ν, 0⟩ =
      .ok (out', ⟨ν', 0⟩) := ⟨_, by with_unfolding_all rfl⟩
  have hν : (Fields.keys ν).Nodup := by decide
  refine ⟨⟨⟨_, by with_unfolding_all rfl⟩, branches_agree.1 _ _ shadowing⟩,
    out, out', hν, hyes, hno, ?_⟩
  exact branches_agree.2 l .functionBody (some shadowingBranch) (some capturingBranch) ⟨ν, 0⟩
    ⟨ν, 0⟩ ⟨ν', 0⟩ out out' hν hyes hno

end Instrument

end TraceLoom
