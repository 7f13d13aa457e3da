import TraceLoom.Proofs.Execution.Calling
import TraceLoom.Proofs.Instrument.Closures

/-!
Blocks.  Both sides open a scope, hoist the same functions into it and run statements there; how
these end says which statement lists are open afterwards.
-/

namespace TraceLoom

open Script Instrument Running

variable {P : Expectation} {W W' : World} {m m' n n' : Machine} {env env' : Environment}
  {call call' : Expr → Value → List Value → Running Value} {ν ν' : Names} {place : Place}
  {F F' : List Frame}

/-! ## Open lists -/

/-- The lists are open that statements at a place may leave. -/
structure OpenAt (P : Expectation) (place : Place) (F : List Frame) : Prop where
  ne_nil : P.strict → F ≠ []
  labels : P.strict → ∀ label ∈ place.labels, (Recording.unwind label F).isSome
  body : P.strict → place.inFunction = true →
    (Recording.unwind standard.options.returnLabel F).isSome

namespace OpenAt

theorem advances (h : OpenAt P place F) (hF : P.strict → Advances F F') : OpenAt P place F' where
  ne_nil hstrict := (hF hstrict).ne_nil
  labels hstrict label hlabel := (hF hstrict).unwind_eq label ▸ h.labels hstrict label hlabel
  body hstrict hplace := (hF hstrict).unwind_eq _ ▸ h.body hstrict hplace

theorem isSome_unwind {scope : Scope} {label : String} (hF : Opens scope F F')
    (h : (Recording.unwind label F).isSome) : (Recording.unwind label F').isSome := by
  by_cases hscope : scope = .label label
  · subst hscope
    obtain ⟨rest, hrest, -⟩ := hF.unwind_self
    rw [hrest, Option.isSome_some]
  · rwa [hF.unwind_eq hscope]

theorem opens (h : OpenAt P place F) {scope : Scope} (hF : P.strict → Opens scope F F') :
    OpenAt P place F' where
  ne_nil hstrict := (hF hstrict).ne_nil
  labels hstrict label hlabel := isSome_unwind (hF hstrict) (h.labels hstrict label hlabel)
  body hstrict hplace := isSome_unwind (hF hstrict) (h.body hstrict hplace)

theorem withLabel (h : OpenAt P place F) {label : String}
    (hF : P.strict → Opens (.label label) F F') : OpenAt P (place.withLabel label) F' where
  ne_nil := (h.opens hF).ne_nil
  labels hstrict other hother := by
    rcases List.mem_append.mp hother with hold | hnew
    · exact (h.opens hF).labels hstrict other hold
    · obtain rfl := List.mem_singleton.mp hnew
      obtain ⟨rest, hrest, -⟩ := (hF hstrict).unwind_self
      rw [hrest, Option.isSome_some]
  body := (h.opens hF).body

end OpenAt

/-! ## Ends of statements -/

/-- Statements end alike.  If the next one follows, the lists are open that were open before; a
break or a return has left those up to its label. -/
inductive Flows (P : Expectation) (place : Place) (F : List Frame) (W : World) :
    Flow → Flow → Machine → Prop
  | next {n : Machine} (hF : P.strict → Advances F n.frames) : Flows P place F W .next .next n
  | breakTo {label : String} {n : Machine} (hlabel : label ∈ place.labels)
      (hF : P.strict → Recording.unwind label F = some n.frames) :
      Flows P place F W (.breakTo (some label)) (.breakTo (some label)) n
  | returnWith {v v' : Value} {n : Machine} (hplace : place.inFunction = true)
      (hv : ValueRel P W v v')
      (hF : P.strict → Recording.unwind standard.options.returnLabel F = some n.frames) :
      Flows P place F W (.returnWith v) (.returnWith v') n

theorem Flows.after {flow flow' : Flow} (hF : P.strict → Advances F F')
    (h : Flows P place F' W flow flow' n) : Flows P place F W flow flow' n := by
  cases h with
  | next h => exact .next fun hstrict => (hF hstrict).trans (h hstrict)
  | breakTo hlabel h =>
      exact .breakTo hlabel fun hstrict => (hF hstrict).unwind_eq _ ▸ h hstrict
  | returnWith hplace hv h =>
      exact .returnWith hplace hv fun hstrict => (hF hstrict).unwind_eq _ ▸ h hstrict

/-- Statements end alike in a list that was opened for them.  If the next one follows, that list
is still open; a break or a return is as from the list around it. -/
def EndsIn (P : Expectation) (place : Place) (scope : Scope) (F : List Frame) (W : World)
    (flow flow' : Flow) (n : Machine) : Prop :=
  (flow = .next ∧ flow' = .next ∧ (P.strict → Opens scope F n.frames)) ∨
    flow ≠ .next ∧ flow' ≠ .next ∧ Flows P place F W flow flow' n

/-- A list that is no body of a label is left together with what is around it. -/
theorem Flows.endsIn {scope : Scope} (hscope : ∀ label, scope ≠ .label label) {flow flow' : Flow}
    (hF : P.strict → Opens scope F F') (h : Flows P place F' W flow flow' n) :
    EndsIn P place scope F W flow flow' n := by
  cases h with
  | next h => exact .inl ⟨rfl, rfl, fun hstrict => (hF hstrict).advances (h hstrict)⟩
  | breakTo hlabel h =>
      exact .inr ⟨nofun, nofun, .breakTo hlabel fun hstrict =>
        (hF hstrict).unwind_eq (hscope _) ▸ h hstrict⟩
  | returnWith hplace hv h =>
      exact .inr ⟨nofun, nofun, .returnWith hplace hv fun hstrict =>
        (hF hstrict).unwind_eq (hscope _) ▸ h hstrict⟩

/-! ## Statements in a row -/

theorem execList_cons (s : Stmt) (ss : List Stmt) :
    Stmt.execList call env (s :: ss) = (do
      match ← s.exec call env with
      | .next => Stmt.execList call env ss
      | flow => return flow) :=
  rfl

theorem execList_append (ss ts : List Stmt) :
    Stmt.execList call env (ss ++ ts) = (do
      match ← Stmt.execList call env ss with
      | .next => Stmt.execList call env ts
      | flow => return flow) := by
  induction ss with
  | nil => rfl
  | cons s ss ih =>
      rw [List.cons_append, execList_cons, execList_cons, ih, bind_assoc]
      refine congrArg (s.exec call env >>= ·) (funext fun flow => ?_)
      cases flow with
      | next => rfl
      | breakTo | returnWith => rfl

theorem execList_singleton (s : Stmt) : Stmt.execList call env [s] = s.exec call env := by
  refine Eq.trans (congrArg (s.exec call env >>= ·) (funext fun flow => ?_)) (bind_pure _)
  cases flow <;> rfl

/-- An inserted statement runs before others. -/
theorem sim_inserted_cons {α : Type} {x : Running α} {s : Stmt} {ss : List Stmt}
    {Q : List Frame → Prop} {R : World → α → Flow → Machine → Prop}
    (h : Sim P W m m' (pure ()) (s.exec call' env') (Passed P W m' Q))
    (hnext : ∀ {n'}, MachineRel P W m n' → m'.store.Grows n'.store → (P.strict → Q n'.frames) →
      Sim P W m n' x (Stmt.execList call' env' ss) R) :
    Sim P W m m' x (Stmt.execList call' env' (s :: ss)) R := by
  refine h.before ?_
  rintro _ n' flow - hrel - ⟨rfl, ⟨rfl, hgrows, hframes⟩⟩
  exact hnext hrel hgrows hframes

/-! ## Functions of a block -/

def Script.Stmt.isFunction : Stmt → Bool
  | .function .. => true
  | _ => false

theorem hoist_cons_of_not_function {s : Stmt} (hs : s.isFunction = false) (ss : List Stmt) :
    hoist env (s :: ss) = hoist env ss := by
  cases s <;> first | rfl | cases hs

theorem hoist_append_of_no_function {ss : List Stmt} (hss : ∀ s ∈ ss, s.isFunction = false)
    (ts : List Stmt) : hoist env (ss ++ ts) = hoist env ts := by
  induction ss with
  | nil => rfl
  | cons s ss ih =>
      obtain ⟨hs, hss⟩ := List.forall_mem_cons.mp hss
      rw [List.cons_append, hoist_cons_of_not_function hs, ih hss]

theorem hoist_append_exitBlock (ss : List Stmt) :
    hoist env (ss ++ [exitBlock standard]) = hoist env ss := by
  induction ss with
  | nil => rfl
  | cons s ss ih =>
      cases s
      case function => simp only [List.cons_append, hoist, ih]
      all_goals exact ih

/-- What is woven of other statements than functions hoists nothing. -/
theorem woven_front {s : Stmt} {front : List Stmt} (hs : s.isFunction = false)
    (h : Woven standard place ν s front ν') : ∀ t ∈ front, t.isFunction = false := by
  cases h with
  | function => cases hs
  | letCall hwoven =>
      cases hwoven with
      | console => split <;> simp [traceCall, traceLet, Stmt.ofExpr, Stmt.isFunction]
      | _ => simp [traceCall, traceLet, exitBlock, Stmt.ofExpr, Stmt.isFunction]
  | expr hwoven => cases hwoven <;> simp [traceCall, Stmt.ofExpr, Stmt.isFunction]
  | _ => simp [traceCall, traceLet, exitBlock, Stmt.letNamed, Stmt.ofExpr, Stmt.isFunction]

/-- Only variables of given names are others. -/
structure Hoisted (names : List String) (m n : Machine) : Prop where
  adapter : n.adapter = m.adapter
  bindings : ∀ scope, ∀ name ∉ names,
    (n.store.bindings scope).get? name = (m.store.bindings scope).get? name

theorem wovenClosure_of_wovenFunction {params : List String} {body body' : List Stmt}
    {self : Option (String × String)} {closure : Expr}
    (h : WovenFunction standard params body ν self body' closure ν') :
    WovenClosure params body body' := by
  cases h with
  | anonymous _ woven => exact .intro woven
  | named _ _ woven => exact .intro woven

theorem sim_hoist {ss : List Stmt} {out : List Stmt} (hweaves : Weaves (stmts standard place ss) ν out ν')
    (hfits : P.Fits ss) (hrel : MachineRel P W m m') (henv : EnvRel W env env') :
    Sim P W m m' (hoist env ss) (hoist env' out) fun W' _ _ n' =>
      Hoisted (declaredIn ss) m' n' ∧ W'.blocks = W.blocks := by
  induction ss generalizing W m m' ν out with
  | nil =>
      obtain ⟨rfl, -⟩ := weaves_nil hweaves
      exact .pure hrel ⟨⟨rfl, fun _ _ _ => rfl⟩, rfl⟩
  | cons s ss ih =>
      obtain ⟨front, rest, ν₁, hs, hss, rfl⟩ := weaves_cons hweaves
      have hdeclared : declaredIn (s :: ss) = declared s ++ declaredIn ss := List.flatMap_cons
      cases hfunction : s.isFunction with
      | false =>
          rw [hoist_cons_of_not_function hfunction,
            hoist_append_of_no_function (woven_front hfunction hs)]
          refine (ih hss hfits.2 hrel henv).imp ?_
          rintro W' _ _ n' - ⟨h, hblocks⟩
          refine ⟨⟨h.adapter, fun scope name hname => ?_⟩, hblocks⟩
          exact h.bindings scope name fun hmem => hname (hdeclared ▸ List.mem_append_right _ hmem)
      | true =>
          cases hs with
          | function hwoven =>
              rename_i pos name params body body' closure
              have hhere := hfits.1.here
              have hclosure : ClosureRel P W ⟨some name, params, body, env, false⟩
                  ⟨some name, params, body', env', false⟩ :=
                ⟨rfl, rfl, rfl, henv, wovenClosure_of_wovenFunction hwoven,
                  ⟨hfits.1.2, fun n hn => hhere.names n (by simp [Stmt.params, hn]), hhere.arity⟩, nofun⟩
              refine (sim_makeFunction hrel hclosure).bind ?_
              rintro W₁ n₁ n₁' f f' hle hrel₁ - ⟨⟨hv, hquiet⟩, hblocks⟩
              refine (sim_declare hrel₁ (henv.mono hle) (hhere.names name (by simp [declared])) hv
                false).bind ?_
              rintro W₂ n₂ n₂' _ _ hle₂ hrel₂ - ⟨hW, hn₂⟩
              refine (ih hss hfits.2 hrel₂ (henv.mono (World.le_trans hle hle₂))).imp ?_
              rintro W₃ _ _ n₃ - ⟨h, hblocks'⟩
              subst hn₂ hW
              refine ⟨⟨h.adapter.trans hquiet.adapter, fun scope n hn => ?_⟩,
                hblocks'.trans hblocks⟩
              rw [hdeclared, List.mem_append, not_or] at hn
              rw [h.bindings scope n hn.2]
              dsimp only
              rw [Store.declare, get?_bindings_write, if_neg, hquiet.grows.bindings]
              exact fun hcond => hn.1 (by simp [declared, hcond.2.2])
          | _ => simp [Stmt.isFunction] at hfunction

/-! ## Scopes of blocks -/

theorem find?_congr {s t : Store} {name : String} {scopes : List ScopeId}
    (h : ∀ scope ∈ scopes, (s.bindings scope).get? name = (t.bindings scope).get? name) :
    s.find? name scopes = t.find? name scopes := by
  induction scopes with
  | nil => rfl
  | cons scope scopes ih =>
      obtain ⟨hscope, hscopes⟩ := List.forall_mem_cons.mp h
      rw [Store.find?, Store.find?, hscope, ih hscopes]

/-- A block has been entered: it has its functions, and sees the other variables as before. -/
structure Inside (names : List String) (m : Machine) (env : Environment) (n : Machine)
    (inner : Environment) : Prop where
  adapter : n.adapter = m.adapter
  lookup : ∀ name ∉ names, n.store.lookup? inner name = m.store.lookup? env name

theorem lookup?_inner {s t : Store} {inner : Environment} (houter : inner.outer = env.own :: env.outer)
    {name : String} (hinner : (t.bindings inner.own).get? name = none)
    (h : ∀ scope, (t.bindings scope).get? name = (s.bindings scope).get? name) :
    t.lookup? inner name = s.lookup? env name := by
  rw [Store.lookup?, Store.lookup?, Store.find?, hinner, houter]
  dsimp only
  rw [find?_congr fun scope _ => h scope]

theorem HasClosure.block (h : HasClosure W env') (hle : W ≤ W') {inner : Environment}
    (houter : inner.outer = env'.own :: env'.outer) (hinner : inner.own ∈ W'.blocks) :
    HasClosure W' inner := by
  obtain ⟨blocks, scope, outer, hscopes, hblocks, hscope⟩ := h.mono hle
  exact ⟨inner.own :: blocks, scope, outer, by rw [houter, hscopes, List.cons_append],
    List.forall_mem_cons.mpr ⟨hinner, hblocks⟩, hscope⟩

theorem sim_inScope {body out body' : List Stmt} {exec exec' : Environment → Running Flow}
    {Q : World → Flow → Flow → Machine → Prop}
    (hweaves : Weaves (stmts standard place body) ν out ν') (hfits : P.Fits body)
    (hbody' : ∀ env, hoist env body' = hoist env out) (hrel : MachineRel P W m m')
    (henv : EnvRel W env env')
    (hexec : ∀ {W₁ n n' inner inner'}, W ≤ W₁ → MachineRel P W₁ n n' → EnvRel W₁ inner inner' →
      (HasClosure W env' → HasClosure W₁ inner') → Inside (declaredIn body) m' env' n' inner' →
      Sim P W₁ n n' (exec inner) (exec' inner') Q) :
    Sim P W m m' (Running.inScope env body exec) (Running.inScope env' body' exec') Q := by
  have hopened : Sim P W m m' (openScope env) (openScope env') fun W₁ inner inner' n' =>
      EnvRel W₁ inner inner' ∧ (HasClosure W env' → HasClosure W₁ inner') ∧
        Inside [] m' env' n' inner' := by
    cases sim_openScope hrel henv with
    | fail hx hy hle hrel' hstays hallows => exact .fail hx hy hle hrel' hstays hallows
    | stop hy hle hrel' hstays hallows hstops => exact .stop hy hle hrel' hstays hallows hstops
    | ok hx hy hle hrel' hstays h =>
        rename_i W₁ n n' inner inner'
        obtain ⟨hinner, hopened⟩ := h
        have hle₁ := W₁.le_addBlock inner'.own
        have hlt : inner'.own < n'.store.scopes.size :=
          hrel'.store.scopes.lt_right (List.forall₂_cons.mp hinner.scopes).1
        refine .ok hx hy (World.le_trans hle hle₁)
          (hrel'.withStores hle₁ (hrel'.store.addBlock hlt hopened.bindings)) hstays
          ⟨hinner.mono hle₁, fun hclosure => ?_, hopened.quiet.adapter, fun name _ => ?_⟩
        · exact hclosure.block (World.le_trans hle hle₁) hopened.outer List.mem_cons_self
        · refine lookup?_inner hopened.outer (by rw [hopened.bindings]; rfl) fun scope => ?_
          rw [hopened.quiet.grows.bindings]
  unfold Running.inScope
  refine hopened.bind fun {_ _ n₁' inner inner'} hle₁ hrel₁ _ ⟨hinner, hclosure, hinside⟩ => ?_
  rw [hbody']
  refine (sim_hoist hweaves hfits hrel₁ hinner).bind fun hle₂ hrel₂ _ ⟨hhoisted, _⟩ => ?_
  refine hexec (World.le_trans hle₁ hle₂) hrel₂ (hinner.mono hle₂)
    (fun h => (hclosure h).mono hle₂) ⟨hhoisted.adapter.trans hinside.adapter, fun name hname => ?_⟩
  rw [← hinside.lookup name List.not_mem_nil, Store.lookup?, Store.lookup?,
    find?_congr fun scope _ => hhoisted.bindings scope name hname]

end TraceLoom
