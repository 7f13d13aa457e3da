import TraceLoom.Proofs.Execution.Mistakes
import TraceLoom.Proofs.Execution.Steps
import TraceLoom.Proofs.Value.Holds

/-!
What stays as it is while programs run.  A law fixes the configuration and says which functions
there may be and whether a break may miss its label.  Apart from those that make a function, the
steps of which executions consist keep every law.
-/

namespace TraceLoom

open Script

structure Law where
  config : Config
  /-- The functions that there may be. -/
  Lawful : Closure → Prop
  /-- Whether an execution may fail for a break whose label or loop is not open. -/
  Dangling : Prop

section

variable (L : Law)

def Value.Obeys : Value → Prop
  | .function _ closure => L.Lawful closure
  | _ => True

def EvalError.Obeys : EvalError → Prop
  | .labelNotOpen _ => L.Dangling
  | _ => True

structure Machine.Obeys (m : Machine) : Prop where
  config : m.config = L.config
  gate : ∀ callee function args s e, m.gate callee function args s = .error e → e.Obeys L
  store : m.store.Holds (Value.Obeys L)
  tasks : ∀ task ∈ m.tasks.toList, task.callback.Obeys L ∧ task.arg.Obeys L
  listener : ∀ l, m.listener = some l → l.callback.Obeys L

/-- What a native gives obeys.  A callback with its answer comes from the arguments, of which it is
the last, and the answer cannot be called. -/
def Native.Result.Obeys (args : List Value) : Native.Result → Prop
  | .value v => v.Obeys L
  | .answered _ callback answer =>
    args.getLast? = some callback ∧ callback.isCallable = true ∧ answer.isCallable = false

/-- A step may end with a value of the kind it is to give, or with an error that obeys. -/
def Law.Allows {α : Type} (Q : α → Prop) : Except EvalError α → Prop
  | .ok a => Q a
  | .error e => e.Obeys L

def Law.Preserves {α : Type} (Q : α → Prop) (x : Running α) : Prop :=
  ∀ m : Machine, m.Obeys L → (m.run x).2.Obeys L ∧ L.Allows Q (m.run x).1

end

variable {L : Law} {α β : Type} {Q : α → Prop}

theorem Value.sparesData_obeys : Value.SparesData (Value.Obeys L) := by
  intro v hv
  cases v with
  | function => cases hv
  | _ => trivial

theorem EvalError.IsMistake.obeys {e : EvalError} (h : e.IsMistake) : e.Obeys L := by
  cases e with
  | labelNotOpen => exact h.elim
  | _ => trivial

namespace Machine.Obeys

variable {m : Machine}

theorem setStore (h : m.Obeys L) {s : Store} (hs : s.Holds (Value.Obeys L)) :
    { m with store := s }.Obeys L :=
  ⟨h.config, h.gate, hs, h.tasks, h.listener⟩

theorem setAdapter (h : m.Obeys L) (adapter : Adapter) : { m with adapter }.Obeys L :=
  ⟨h.config, h.gate, h.store, h.tasks, h.listener⟩

theorem push (h : m.Obeys L) (task : Task)
    (htask : task.callback.Obeys L ∧ task.arg.Obeys L) :
    { m with tasks := m.tasks.push task }.Obeys L := by
  refine ⟨h.config, h.gate, h.store, fun other hother => ?_, h.listener⟩
  rw [Queue.toList_push, List.mem_append] at hother
  exact hother.elim (h.tasks other) fun hmem => List.mem_singleton.mp hmem ▸ htask

end Machine.Obeys

/-- The names that every program has are natives and data. -/
theorem Store.Holds.newGlobals {s : Store} (h : s.Holds (Value.Obeys L)) :
    s.newGlobals.2.Holds (Value.Obeys L) := by
  have hvariables := (h.newScope.declare ⟨s.scopes.size, []⟩ "undefined" (v := .undefined) trivial
    true).declare ⟨s.scopes.size, []⟩ "require" (v := .native .require) trivial true
  have hmethods : ∀ field ∈ [("log", Value.native (.console "log")),
      ("error", .native (.console "error"))], field.2.Obeys L := by
    simp [Value.Obeys]
  exact (hvariables.newObject hmethods).declare ⟨s.scopes.size, []⟩ "console" (v := .object _)
    trivial true

theorem Store.holds_newGlobals : Store.empty.newGlobals.2.Holds (Value.Obeys L) :=
  Store.Holds.newGlobals
    ⟨by simp [Store.empty], by simp [Store.empty], by simp [Store.empty]⟩

theorem OnlyMistakes.allows {x : Except EvalError α} (h : OnlyMistakes x)
    (hx : ∀ a, x = .ok a → Q a) : L.Allows Q x := by
  cases x with
  | ok a => exact hx a rfl
  | error e => exact (h e rfl).obeys

namespace Law.Preserves

theorem pure {a : α} (h : Q a) : L.Preserves Q (pure a) :=
  fun _ hm => ⟨hm, h⟩

theorem throw {e : EvalError} (h : e.Obeys L) : L.Preserves Q (throw e) :=
  fun _ hm => ⟨hm, h⟩

theorem bind {R : β → Prop} {x : Running α} {f : α → Running β} (hx : L.Preserves Q x)
    (hf : ∀ a, Q a → L.Preserves R (f a)) : L.Preserves R (x >>= f) := by
  intro m hm
  have hm' := hx m hm
  rw [m.run_bind]
  generalize m.run x = run at hm'
  obtain ⟨r, n⟩ := run
  obtain ⟨hn, hr⟩ := hm'
  cases r with
  | error e => exact ⟨hn, hr⟩
  | ok a => exact hf a hr n hn

theorem get : L.Preserves (Machine.Obeys L) get :=
  fun _ hm => ⟨hm, hm⟩

theorem set {n : Machine} (h : n.Obeys L) : L.Preserves (fun _ => True) (set n) :=
  fun _ _ => ⟨h, trivial⟩

theorem modifyGet {f : Machine → α × Machine}
    (h : ∀ m : Machine, m.Obeys L → Q (f m).1 ∧ (f m).2.Obeys L) : L.Preserves Q (modifyGet f) :=
  fun m hm => (h m hm).symm

theorem make {f : Store → α × Store}
    (h : ∀ s : Store, s.Holds (Value.Obeys L) → Q (f s).1 ∧ (f s).2.Holds (Value.Obeys L)) :
    L.Preserves Q (Running.make f) :=
  fun m hm => ⟨hm.setStore (h m.store hm.store).2, (h m.store hm.store).1⟩

theorem change {f : Store → Store}
    (h : ∀ s : Store, s.Holds (Value.Obeys L) → (f s).Holds (Value.Obeys L)) :
    L.Preserves (fun _ => True) (Running.change f) :=
  make fun s hs => ⟨trivial, h s hs⟩

theorem ofExcept {x : Except EvalError α} (h : L.Allows Q x) :
    L.Preserves Q (MonadExcept.ofExcept x) := by
  intro m hm
  rw [m.run_ofExcept]
  exact ⟨hm, h⟩

theorem read {f : Store → Except EvalError α}
    (h : ∀ s : Store, s.Holds (Value.Obeys L) → L.Allows Q (f s)) :
    L.Preserves Q (Running.read f) :=
  get.bind fun m hm => ofExcept (h m.store hm.store)

theorem permit (callee : Option Expr) (function : Value) (args : List Value) :
    L.Preserves (fun _ => True) (Running.permit callee function args) := by
  refine get.bind fun m hm => ofExcept ?_
  cases hgate : m.gate callee function args m.store with
  | ok => trivial
  | error e => exact hm.gate _ _ _ _ e hgate

theorem adapting (step : Adapting α) : L.Preserves (fun _ => True) (Running.adapting step) := by
  intro m hm
  rw [m.run_adapting]
  refine ⟨hm.setAdapter _, ?_⟩
  cases (m.adapter.run step).1 <;> trivial

theorem observe {x : Running α} (h : L.Preserves Q x) :
    L.Preserves (L.Allows Q) (Running.observe x) :=
  h

/-! ## Values -/

theorem openScope (env : Environment) : L.Preserves (fun _ => True) (Running.openScope env) :=
  make fun _ hs => ⟨trivial, hs.child env⟩

theorem makeFunction {name : Option String} {params : List String} {body : List Stmt}
    {env : Environment} {bindsSelf : Bool} (h : L.Lawful ⟨name, params, body, env, bindsSelf⟩) :
    L.Preserves (Value.Obeys L) (Running.makeFunction name params body env bindsSelf) :=
  make fun _ hs => ⟨h, hs.newFunction _⟩

theorem newArray {items : List Value} (hitems : ∀ v ∈ items, v.Obeys L) :
    L.Preserves (Value.Obeys L) (Running.make (Store.newArray items.toArray)) :=
  make fun _ hs => ⟨trivial, hs.newArray fun v hv => hitems v (List.mem_toArray.mp hv)⟩

theorem newObject {fields : List (String × Value)} (hfields : ∀ field ∈ fields, field.2.Obeys L) :
    L.Preserves (Value.Obeys L) (Running.make (Store.newObject (Fields.ofPairs fields))) :=
  make fun _ hs => ⟨trivial, hs.newObject (Fields.forall_ofPairs hfields)⟩

theorem invoke (method : Method) {args : List Value} (hargs : ∀ v ∈ args, v.Obeys L) :
    L.Preserves (Value.Obeys L) (Running.make (Store.invoke method args)) :=
  make fun _ hs => hs.invoke Value.sparesData_obeys method hargs

theorem declare (env : Environment) (name : String) {v : Value} (hv : v.Obeys L)
    (constant : Bool) :
    L.Preserves (fun _ => True) (Running.change (Store.declare env name v constant)) :=
  change fun _ hs => hs.declare env name hv constant

theorem hoist {env : Environment} {body : List Stmt}
    (h : ∀ pos name params fbody, .function pos name params fbody ∈ body →
      L.Lawful ⟨some name, params, fbody, env, false⟩) :
    L.Preserves (fun _ => True) (Running.hoist env body) := by
  induction body with
  | nil => exact pure trivial
  | cons s body ih =>
      have hrest := ih fun pos name params fbody hmem =>
        h pos name params fbody (List.mem_cons_of_mem _ hmem)
      cases s with
      | function pos name params fbody =>
          exact (makeFunction (h pos name params fbody List.mem_cons_self)).bind fun _ hf =>
            (declare env name hf false).bind fun _ _ => hrest
      | _ => exact hrest

theorem bindPattern (env : Environment) (kind : DeclKind) (target : Pattern) {v : Value}
    (hv : v.Obeys L) : L.Preserves (fun _ => True) (Running.bindPattern env kind target v) := by
  cases target with
  | name name => exact declare env name hv _
  | array names =>
      refine (read (Q := fun bound : List (String × Value) => ∀ entry ∈ bound, entry.2.Obeys L)
        fun s hs => ?_).bind fun bound hbound => change fun s hs => hs.declareAll env hbound _
      cases hd : s.destructure names v with
      | ok bound => exact hs.destructure Value.sparesData_obeys hd
      | error e =>
          unfold Store.destructure at hd
          split at hd <;> cases hd
          trivial

theorem readName (env : Environment) (name : String) :
    L.Preserves (Value.Obeys L) (Running.readName env name) := by
  refine read fun s hs => ?_
  split
  · exact hs.lookup? ‹_›
  · trivial

theorem property (v : Value) (name : String) :
    L.Preserves (Value.Obeys L) (Running.read fun s => s.property v name) := by
  refine read fun s hs => ?_
  cases h : s.property v name with
  | ok w => exact hs.property Value.sparesData_obeys h
  | error e =>
      unfold Store.property at h
      split at h <;> cases h <;> trivial

theorem element (v key : Value) :
    L.Preserves (Value.Obeys L) (Running.read fun s => s.element v key) := by
  refine read fun s hs => ?_
  cases h : s.element v key with
  | ok w => exact hs.element Value.sparesData_obeys h
  | error e =>
      unfold Store.element at h
      split at h
      · cases h
      · cases h
      · unfold Store.property at h
        split at h <;> cases h <;> trivial

theorem applyOperator (op : BinaryOp) {v w : Value} (hv : v.Obeys L) (hw : w.Obeys L) :
    L.Preserves (Value.Obeys L) (Running.applyOperator op v w) :=
  get.bind fun m _ => pure (m.store.holds_binary Value.sparesData_obeys op hv hw)

theorem put (location : Location) {v : Value} (hv : v.Obeys L) :
    L.Preserves (fun _ => True) (Running.change (Store.put location v)) :=
  change fun _ hs => hs.put Value.sparesData_obeys location hv

theorem setName (env : Environment) (name : String) {v : Value} (hv : v.Obeys L) :
    L.Preserves (fun _ => True) (Running.setName env name v) := by
  refine (read (Q := fun _ => True) fun s _ => ?_).bind fun location _ => put location hv
  unfold Store.variableLocation Store.assignable
  split
  · trivial
  · split <;> trivial

theorem setPart (v key : Value) {w : Value} (hw : w.Obeys L) :
    L.Preserves (fun _ => True) (Running.setPart v key w) := by
  refine get.bind fun m _ => (read (Q := fun _ => True) fun s _ => ?_).bind fun location _ =>
    put location hw
  unfold Store.partLocation
  split
  · split
    · trivial
    · split <;> trivial
  · trivial
  · trivial

theorem openBody {function : Value} {closure : Closure} {args : List Value}
    (hfunction : function.Obeys L) (hargs : ∀ v ∈ args, v.Obeys L) :
    L.Preserves (fun _ => True) (Running.openBody function closure args) := by
  refine (openScope closure.env).bind fun env _ => ?_
  have hparams : L.Preserves (fun _ => True) (do
      Running.change fun s => closure.params.zipIdx.foldl (fun s entry =>
        s.declare env entry.1 (args[entry.2]?.getD .undefined) false) s
      return env) := by
    refine (change fun s hs => ?_).bind fun _ _ => pure trivial
    have harg (i : Nat) : (args[i]?.getD Value.undefined).Obeys L :=
      Value.sparesData_obeys.getD fun v hv => hargs v (List.mem_of_getElem? hv)
    generalize closure.params.zipIdx = params
    induction params generalizing s with
    | nil => exact hs
    | cons param params ih => exact ih _ (hs.declare env param.1 (harg param.2) false)
  dsimp only
  split
  · exact (declare env _ hfunction false).bind fun _ _ => hparams
  · exact hparams

/-! ## Natives -/

theorem arguments (operation : String) (values : List Value) :
    L.Preserves (fun a => a.values = values) (Native.arguments operation values) :=
  get.bind fun _ _ => pure rfl

theorem newTraces (ts : List Trace) :
    L.Preserves (Value.Obeys L) (Running.make (Store.newTraces ts)) :=
  make fun _ hs => ⟨trivial, hs.newTraces Value.sparesData_obeys ts⟩

theorem newTrace (t : Trace) : L.Preserves (Value.Obeys L) (Running.make (Store.newTrace t)) :=
  make fun _ hs => ⟨trivial, hs.newTrace t⟩

theorem importModule (name : String) : L.Preserves (Value.Obeys L) (Native.importModule name) := by
  refine get.bind fun m _ => ?_
  dsimp only
  split
  · refine make fun s hs => ⟨trivial, (hs.newTrace .undefined).newObject fun field hfield => ?_⟩
    rcases List.mem_append.mp hfield with hfield | hfield
    · obtain ⟨name, -, rfl⟩ := List.mem_map.mp hfield
      trivial
    · exact List.mem_singleton.mp hfield ▸ trivial
  · split
    · refine make fun s hs => ⟨trivial, (hs.newObject fun field hfield => ?_).newObject
        fun field hfield => ?_⟩
      · obtain ⟨name, -, rfl⟩ := List.mem_map.mp hfield
        trivial
      · rcases List.mem_append.mp hfield with hfield | hfield
        · obtain ⟨event, -, rfl⟩ := List.mem_map.mp hfield
          trivial
        · simp only [List.mem_cons, List.not_mem_nil, or_false] at hfield
          rcases hfield with rfl | rfl <;> trivial
    · exact throw trivial

theorem log (values : List Value) : L.Preserves (fun _ => True) (Native.log values) :=
  modifyGet fun _ hm => ⟨trivial, hm.config, hm.gate, hm.store, hm.tasks, hm.listener⟩

theorem build (name : String) (values : List Value) :
    L.Preserves (Value.Obeys L) (Native.build name values) := by
  refine (arguments name values).bind fun a _ => ?_
  split
  · exact (ofExcept ((OnlyMistakes.captures a).allows fun _ _ => trivial)).bind fun ts _ =>
      newTraces ts
  · exact (ofExcept ((OnlyMistakes.build a).allows fun _ _ => trivial)).bind fun t _ => newTrace t

theorem record (name : String) (values : List Value) :
    L.Preserves (Value.Obeys L) (Native.record name values) := by
  refine (arguments name values).bind fun a _ => get.bind fun m _ => ?_
  split
  · exact throw trivial
  · split
    · exact newTrace _
    · refine (ofExcept ((OnlyMistakes.ofArguments a).allows fun _ _ => trivial)).bind
        fun operation _ => (adapting _).bind fun r _ => ?_
      split
      · exact newTraces _
      · exact pure trivial

theorem answer (value : Value) : L.Preserves (fun _ => True) (Native.answer value) :=
  get.bind fun _ _ => adapting _

theorem fetch (event : Event) (url : String) (body : Option Json) :
    L.Preserves (fun _ => True) (Native.fetch event url body) :=
  get.bind fun _ hm => (set (hm.setAdapter _)).bind fun _ _ => pure trivial

theorem enqueue {task : Task} (htask : task.callback.Obeys L ∧ task.arg.Obeys L) :
    L.Preserves (fun _ => True) (Native.enqueue task) :=
  modifyGet fun _ hm => ⟨trivial, hm.push task htask⟩

theorem ofJson (j : Json) :
    L.Preserves (fun v => v.isCallable = false) (Running.make (Store.ofJson j)) :=
  make fun _ hs => hs.ofJson Value.sparesData_obeys j

theorem subscribe (event : Event) {values : List Value} (hvalues : ∀ v ∈ values, v.Obeys L) :
    L.Preserves (Native.Result.Obeys L values) (Native.subscribe event values) := by
  refine (arguments event.name values).bind fun a ha => ?_
  have hlast : L.Allows (fun v => values.getLast? = some v ∧ v.isCallable = true) a.callback := by
    refine (OnlyMistakes.callback a).allows fun v hv => ?_
    rw [← ha]
    exact Arguments.getLast?_of_callback hv
  refine (ofExcept hlast).bind fun callback hcallback => (adapting _).bind fun registration _ => ?_
  have hobeys : callback.Obeys L := hvalues _ (List.mem_of_getLast? hcallback.1)
  have hqueue (v : Value) (hv : v.Obeys L) : L.Preserves (Native.Result.Obeys L values) (do
      Native.enqueue ⟨registration, callback, v⟩
      return .value .undefined) :=
    (enqueue ⟨hobeys, hv⟩).bind fun _ _ => pure trivial
  split
  · refine get.bind fun m _ => ?_
    split
    · exact (adapting _).bind fun _ _ => throw trivial
    · refine (modifyGet (Q := fun _ => True) fun m hm => ?_).bind fun _ _ => pure trivial
      exact ⟨trivial, hm.config, hm.gate, hm.store, hm.tasks, by rintro _ ⟨⟩; exact hobeys⟩
  · refine hqueue _ ?_
    exact Value.sparesData_obeys.getD fun v hv => hvalues v (ha ▸ List.mem_of_getElem? hv)
  · refine (read (Q := fun _ => True) fun s _ => ?_).bind fun request _ => ?_
    · unfold Store.request
      split
      · trivial
      · dsimp only
        split <;> trivial
      · trivial
    · refine (fetch _ _ _).bind fun response _ => ?_
      split
      · refine (ofJson _).bind fun v hv => ?_
        split
        · exact pure ⟨hcallback.1, hcallback.2, hv⟩
        · exact hqueue v (Value.sparesData_obeys v hv)
      · split
        · exact throw trivial
        · exact hqueue .undefined trivial

theorem perform (n : Native) {values : List Value} (hvalues : ∀ v ∈ values, v.Obeys L) :
    L.Preserves (Native.Result.Obeys L values) (n.perform values) := by
  cases n with
  | require =>
      exact (arguments "require" values).bind fun a _ =>
        (ofExcept ((OnlyMistakes.string a 0).allows fun _ _ => trivial)).bind fun name _ =>
          (importModule name).bind fun _ hv => pure hv
  | console method => exact (log values).bind fun _ _ => pure trivial
  | builder name => exact (build name values).bind fun _ hv => pure hv
  | trace operation => exact (record operation values).bind fun _ hv => pure hv
  | host event => exact subscribe event hvalues
  | respond => exact (answer _).bind fun _ _ => pure trivial

/-! ## What the host does -/

theorem fire (registration : Registration) (conversation : Option ConversationId)
    {callback : Running α} (h : L.Preserves Q callback) :
    L.Preserves (fun _ => True) (Running.fire registration conversation callback) :=
  (adapting _).bind fun _ _ => h.observe.bind fun _ hresult =>
    (adapting _).observe.bind fun _ hleft =>
      (ofExcept hresult).bind fun _ _ => ofExcept hleft

section

variable (hcall : ∀ function args, function.Obeys L → (∀ v ∈ args, v.Obeys L) →
  L.Preserves (Value.Obeys L) (Running.call function args))

include hcall

theorem drain (limit remaining : Nat) :
    L.Preserves (fun _ => True) (Running.drain limit remaining) := by
  induction remaining with
  | zero =>
      refine get.bind fun m _ => ?_
      split
      · exact throw trivial
      · exact pure trivial
  | succ remaining ih =>
      refine get.bind fun m hm => ?_
      split
      · exact pure trivial
      · rename_i task tasks hpop
        have hqueue := Queue.toList_of_pop? hpop
        obtain ⟨hcallback, harg⟩ := hm.tasks task (hqueue ▸ List.mem_cons_self)
        refine (set ?_).bind fun _ _ => (fire task.registration none (hcall task.callback [task.arg]
          hcallback (List.forall_mem_singleton.mpr harg))).bind fun _ _ => ih
        exact ⟨hm.config, hm.gate, hm.store, fun other hother =>
          hm.tasks other (hqueue ▸ List.mem_cons_of_mem _ hother), hm.listener⟩

theorem request (budget : Nat) (body : Json) :
    L.Preserves (fun _ => True) (Machine.request budget body) := by
  refine get.bind fun m hm => ?_
  split
  · exact throw trivial
  · rename_i listener hlistener
    have hopen : L.Preserves (fun _ => True) Machine.openConversation :=
      modifyGet fun _ hn => ⟨trivial, hn.setAdapter _⟩
    have htake (id : ConversationId) : L.Preserves (fun _ => True) (Machine.takeResponse id) :=
      modifyGet fun _ hn => ⟨trivial, hn.setAdapter _⟩
    exact hopen.bind fun id _ => (ofJson body).bind fun arg harg =>
      (fire listener.registration (some id) (hcall listener.callback [arg]
        (hm.listener listener hlistener)
        (List.forall_mem_singleton.mpr (Value.sparesData_obeys arg harg)))).bind fun _ _ =>
          (drain hcall budget budget).bind fun _ _ => htake id

end

theorem forM {xs : List β} {f : β → Running PUnit}
    (hf : ∀ x, L.Preserves (fun _ => True) (f x)) : L.Preserves (fun _ => True) (xs.forM f) := by
  induction xs with
  | nil => exact pure trivial
  | cons x xs ih => exact (hf x).bind fun _ _ => ih

theorem optionForM {x : Option β} {f : β → Running PUnit}
    (hf : ∀ x, L.Preserves (fun _ => True) (f x)) : L.Preserves (fun _ => True) (x.forM f) := by
  cases x with
  | none => exact pure trivial
  | some x => exact hf x

theorem reset : L.Preserves (fun _ => True) Machine.reset := by
  refine (make (Q := fun _ => True) fun _ _ => ⟨trivial, Store.holds_newGlobals⟩).bind fun _ _ =>
    get.bind fun m hm => (set ?_).bind fun _ _ => (forM fun _ => adapting _).bind fun _ _ => ?_
  · exact ⟨hm.config, hm.gate, hm.store, List.forall_mem_nil _, fun _ hnone => nomatch hnone⟩
  · exact optionForM fun _ => adapting _

end Law.Preserves

theorem Machine.obeys_new {config : Config} (h : config = L.config) (adapter : Adapter) :
    (Machine.new config adapter).Obeys L where
  config := h
  gate := fun _ _ _ _ _ hok => nomatch hok
  store := Store.holds_newGlobals
  tasks := List.forall_mem_nil _
  listener := fun _ hnone => nomatch hnone

end TraceLoom
