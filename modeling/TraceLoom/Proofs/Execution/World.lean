import Mathlib.Data.List.Forall2
import TraceLoom.Execution.Native
import TraceLoom.Proofs.Fields
import TraceLoom.Proofs.Instrument.Weaving
import TraceLoom.Proofs.Script.Everywhere
import TraceLoom.Proofs.Recorder.Discipline

/-!
How the values of a program correspond to those of the instrumented program.  Every array, object,
scope and identity of the program has a counterpart; the instrumented program has more of them,
which the program cannot reach.  A closure corresponds to one whose body was woven.
-/

namespace TraceLoom

open Script Instrument

/-- The instrumentation with standard names. -/
abbrev standard : Lower :=
  ⟨.default, .default⟩

/-- Names that instrumentation generates for variables. -/
def Generated (n : String) : Prop :=
  n = closureParam ∨ IsTest n ∨ ∃ i : Nat, n = "$p" ++ toString i

/-- Names that only the instrumented program gives to variables. -/
def Hidden (n : String) : Prop :=
  standard.options.isReserved n = true ∨ Generated n

/-! ## What is expected -/

/-- How an instrumented program may stop where the program itself would go on. -/
structure Expectation where
  /-- The recorder is not expected to be misused. -/
  strict : Prop
  /-- What the gate answers to a call of the recorder that was not inserted. -/
  refusal : EvalError
  refusal_ne : strict → ∀ t : TraceError, refusal = .trace t → ¬ t.IsMisuse

/-- Whether the instrumentation has inserted a call, to judge by what is called. -/
def isInserted : Option Expr → Bool
  | some (.member _ (.member _ (.name _ n) "trace") _) => n == standard.options.callbacksBinding
  | _ => false

/-- A gate that only inserted calls of the recorder pass. -/
def recorderGate (refusal : EvalError) : Gate := fun callee function _ _ =>
  match function with
  | .native (.trace _) => if isInserted callee then .ok () else .error refusal
  | _ => .ok ()

variable (P : Expectation)

namespace Expectation

/-- Errors that may come up, on whatever side. -/
def Allows (e : EvalError) : Prop :=
  P.strict → ∀ t : TraceError, e = .trace t → ¬ t.IsMisuse

/-- Errors by which the instrumented program alone may stop. -/
inductive Stops : EvalError → Prop
  | trace (t : TraceError) : Stops (.trace t)
  | refusal : Stops P.refusal

/-- What a statement has to be like, apart from the statements in it. -/
structure FitsHere (s : Stmt) : Prop where
  names : ∀ n ∈ declared s ++ s.params ++ s.freeNames Option.toList, ¬ Hidden n
  label : P.strict → ∀ pos label body, s = .labeled pos label body →
    label ≠ standard.options.returnLabel
  arity : s.params.length ≤ Recorder.maxArity
  updates : ∀ pos epos npos op isPrefix,
    s ≠ .expr pos (.update epos op isPrefix (.name npos "undefined"))

/-- What the statements of a program have to be like. -/
abbrev Fits (ss : List Stmt) : Prop :=
  Stmt.EverywhereIn P.FitsHere ss

/-- What the parameters and the body of a function have to be like. -/
structure FitsFunction (params : List String) (body : List Stmt) : Prop where
  body : P.Fits body
  names : ∀ n ∈ params, ¬ Hidden n
  arity : params.length ≤ Recorder.maxArity

end Expectation

/-! ## Worlds -/

/-- The counterparts of places and identities, in order, and what the instrumentation knows of
the scopes on its side. -/
structure World where
  arrays : List Nat
  objects : List Nat
  scopes : List ScopeId
  identities : List Nat
  /-- Scopes of blocks: the closure record is never bound there. -/
  blocks : List ScopeId
  /-- Names of the instrumentation that are bound. -/
  bound : List (ScopeId × String)
  /-- The scope of the program's own variables. -/
  home : ScopeId
  /-- The contexts in which execution goes on after the callback that runs now. -/
  held : List ContextId

namespace World

/-- The modules are bound at home. -/
def Ready (W : World) : Prop :=
  (W.home, standard.options.expBinding) ∈ W.bound ∧
    (W.home, standard.options.callbacksBinding) ∈ W.bound

/-- A later world knows all that an earlier one did. -/
structure Le (W W' : World) : Prop where
  arrays : W.arrays <+: W'.arrays
  objects : W.objects <+: W'.objects
  scopes : W.scopes <+: W'.scopes
  identities : W.identities <+: W'.identities
  blocks : W.blocks ⊆ W'.blocks
  bound : W.bound ⊆ W'.bound
  home : W'.home = W.home
  held : W'.held = W.held

instance : LE World :=
  ⟨Le⟩

@[refl] theorem le_refl (W : World) : W ≤ W :=
  ⟨List.prefix_refl _, List.prefix_refl _, List.prefix_refl _, List.prefix_refl _,
    List.Subset.refl _, List.Subset.refl _, rfl, rfl⟩

@[trans] theorem le_trans {W W' W'' : World} (h : W ≤ W') (h' : W' ≤ W'') : W ≤ W'' :=
  ⟨h.arrays.trans h'.arrays, h.objects.trans h'.objects, h.scopes.trans h'.scopes,
    h.identities.trans h'.identities, List.Subset.trans h.blocks h'.blocks,
    List.Subset.trans h.bound h'.bound, h'.home.trans h.home, h'.held.trans h.held⟩

theorem Ready.mono {W W' : World} (hW : W.Ready) (h : W ≤ W') : W'.Ready := by
  rw [Ready, h.home]
  exact ⟨h.bound hW.1, h.bound hW.2⟩

end World

theorem getElem?_of_isPrefix {α : Type} {xs ys : List α} (h : xs <+: ys) {i : Nat} {x : α}
    (hx : xs[i]? = some x) : ys[i]? = some x := by
  obtain ⟨zs, rfl⟩ := h
  exact List.getElem?_append_left (List.getElem?_eq_some_iff.mp hx).1 ▸ hx

/-! ## Values -/

/-- Environments correspond scope by scope, and lead home. -/
structure EnvRel (W : World) (env env' : Environment) : Prop where
  scopes : List.Forall₂ (fun scope scope' => W.scopes[scope]? = some scope')
    (env.own :: env.outer) (env'.own :: env'.outer)
  home : W.home ∈ env'.own :: env'.outer

/-- The second body is the first one, woven. -/
inductive WovenClosure (params : List String) (body : List Stmt) : List Stmt → Prop
  | intro {pos : Position} {out : List Stmt} {inner : Names}
      (woven : WovenBody standard .functionBody body (Names.ofParams params pos) out inner) :
      WovenClosure params body (prologue standard params ++ out ++ [exitBlock standard])

structure ClosureRel (W : World) (c c' : Closure) : Prop where
  name : c'.name = c.name
  params : c'.params = c.params
  bindsSelf : c'.bindsSelf = c.bindsSelf
  env : EnvRel W c.env c'.env
  woven : WovenClosure c.params c.body c'.body
  fits : P.FitsFunction c.params c.body
  self : c.bindsSelf = true → ∀ name, c.name = some name → standard.options.isReserved name = false

inductive ValueRel (W : World) : Value → Value → Prop
  | undefined : ValueRel W .undefined .undefined
  | null : ValueRel W .null .null
  | boolean (b : Bool) : ValueRel W (.boolean b) (.boolean b)
  | number (x : Float) : ValueRel W (.number x) (.number x)
  | string (t : String) : ValueRel W (.string t) (.string t)
  | native (n : Native) : ValueRel W (.native n) (.native n)
  | array {a b : Nat} (h : W.arrays[a]? = some b) : ValueRel W (.array a) (.array b)
  | object {a b : Nat} (h : W.objects[a]? = some b) : ValueRel W (.object a) (.object b)
  | function {i j : Nat} {c c' : Closure} (h : W.identities[i]? = some j)
      (closure : ClosureRel P W c c') : ValueRel W (.function i c) (.function j c')
  | trace {i j : Nat} (h : W.identities[i]? = some j) (t : Trace) :
      ValueRel W (.trace i t) (.trace j t)

structure VariableRel (W : World) (x y : Variable) : Prop where
  value : ValueRel P W x.value y.value
  constant : y.constant = x.constant

/-- Fields with the same names in the same order. -/
def FieldsRel (W : World) : Fields Value → Fields Value → Prop :=
  List.Forall₂ fun x y => y.1 = x.1 ∧ ValueRel P W x.2 y.2

section

variable {P} {W W' : World}

theorem EnvRel.mono (h : W ≤ W') {env env' : Environment} (henv : EnvRel W env env') :
    EnvRel W' env env' :=
  ⟨henv.scopes.imp fun _ _ => getElem?_of_isPrefix h.scopes, h.home ▸ henv.home⟩

theorem ClosureRel.mono (h : W ≤ W') {c c' : Closure} (hc : ClosureRel P W c c') :
    ClosureRel P W' c c' :=
  ⟨hc.name, hc.params, hc.bindsSelf, hc.env.mono h, hc.woven, hc.fits, hc.self⟩

theorem ValueRel.mono (h : W ≤ W') {v v' : Value} (hv : ValueRel P W v v') :
    ValueRel P W' v v' := by
  cases hv with
  | array ha => exact .array (getElem?_of_isPrefix h.arrays ha)
  | object ha => exact .object (getElem?_of_isPrefix h.objects ha)
  | function hi hc => exact .function (getElem?_of_isPrefix h.identities hi) (hc.mono h)
  | trace hi t => exact .trace (getElem?_of_isPrefix h.identities hi) t
  | _ => constructor

theorem VariableRel.mono (h : W ≤ W') {x y : Variable} (hx : VariableRel P W x y) :
    VariableRel P W' x y :=
  ⟨hx.value.mono h, hx.constant⟩

theorem FieldsRel.mono (h : W ≤ W') {fs gs : Fields Value} (hfs : FieldsRel P W fs gs) :
    FieldsRel P W' fs gs :=
  hfs.imp fun _ _ hx => ⟨hx.1, hx.2.mono h⟩

end

/-! ## Stores -/

/-- Of the arrays, objects, scopes or identities of the other side each has one counterpart. -/
structure Counterparts (places : List Nat) (size size' : Nat) : Prop where
  length : places.length = size
  nodup : places.Nodup
  lt : ∀ place ∈ places, place < size'

/-- The properties under which the recorder's operations stand. -/
def operationFields : Fields Value :=
  Operation.names.map fun name => (name, .native (.trace name))

/-- A module with the constructors of traces, out of the program's reach. -/
def IsBuilderModule (W : World) (s : Store) (v : Value) : Prop :=
  ∃ place identity, v = .object place ∧ place ∉ W.objects ∧ place < s.objects.size ∧
    s.properties place = (Builder.names.map fun name => (name, Value.native (.builder name))) ++
      [("undefined_", .trace identity .undefined)]

/-- A module with the operations of the recorder, out of the program's reach. -/
def IsCallbacksModule (W : World) (s : Store) (v : Value) : Prop :=
  ∃ place operations, v = .object place ∧ place ∉ W.objects ∧ place < s.objects.size ∧
    (s.properties place).get? "trace" = some (.object operations) ∧
    operations ∉ W.objects ∧ operations < s.objects.size ∧
    s.properties operations = operationFields

/-- What the instrumentation relies on in its own store. -/
structure Furnished (W : World) (s : Store) : Prop where
  builder : ∀ {scope : ScopeId} {x : Variable},
    (s.bindings scope).get? standard.options.expBinding = some x → IsBuilderModule W s x.value
  callbacks : ∀ {scope : ScopeId} {x : Variable},
    (s.bindings scope).get? standard.options.callbacksBinding = some x →
      IsCallbacksModule W s x.value
  closure : ∀ {scope : ScopeId}, (scope, closureParam) ∈ W.bound → ∀ {x : Variable},
    (s.bindings scope).get? closureParam = some x →
      ∃ identity t, x.value = .trace identity t ∧ Trace.Plain t
  bound : ∀ {scope : ScopeId} {n : String}, (scope, n) ∈ W.bound →
    n ∈ Fields.keys (s.bindings scope)
  blocks : ∀ {scope : ScopeId}, scope ∈ W.blocks →
    scope < s.scopes.size ∧ closureParam ∉ Fields.keys (s.bindings scope)

/-- The stores correspond in all that the program can reach. -/
structure StoreRel (W : World) (s s' : Store) : Prop where
  arrays : Counterparts W.arrays s.arrays.size s'.arrays.size
  objects : Counterparts W.objects s.objects.size s'.objects.size
  scopes : Counterparts W.scopes s.scopes.size s'.scopes.size
  identities : Counterparts W.identities s.identities s'.identities
  items : ∀ {a b : Nat}, W.arrays[a]? = some b →
    List.Forall₂ (ValueRel P W) (s.items a).toList (s'.items b).toList
  properties : ∀ {a b : Nat}, W.objects[a]? = some b →
    FieldsRel P W (s.properties a) (s'.properties b)
  bindings : ∀ {a b : Nat}, W.scopes[a]? = some b → ∀ {n : String}, ¬ Hidden n →
    Option.Rel (VariableRel P W) ((s.bindings a).get? n) ((s'.bindings b).get? n)
  furnished : Furnished W s'

end TraceLoom
