import TraceLoom.Proofs.Execution.Making
import TraceLoom.Proofs.Instrument.Tracers
import TraceLoom.Proofs.Value.Reach

/-!
The realm of an instrumented program.  Of its three modules it comes by none in another way than
the instrumentation does: the variables that hold them have names that it cannot use, and they are
nowhere else.
-/

namespace TraceLoom

open Script Instrument

/-! ## Making things within a realm -/

namespace Store.Reaches

variable {R : Realm} {s : Store}

theorem newTraces (h : s.Reaches R) (ts : List Trace) : (s.newTraces ts).2.Reaches R := by
  have hfold (values : Array Value) {s : Store} (hvalues : ∀ v ∈ values, v.Reaches R)
      (hs : s.Reaches R) : (∀ v ∈ (ts.foldl appendTrace (values, s)).1, v.Reaches R) ∧
        (ts.foldl appendTrace (values, s)).2.Reaches R := by
    induction ts generalizing values s with
    | nil => exact ⟨hvalues, hs⟩
    | cons t ts ih =>
        exact ih _ (fun v hv => (Array.mem_push.mp hv).elim (hvalues v) fun heq => heq ▸ trivial)
          (hs.newTrace t)
  obtain ⟨hvalues, hs⟩ := hfold #[] (by simp) h
  rw [newTraces_eq]
  exact hs.newArray hvalues

mutual

theorem ofJson {s : Store} (j : Json) (h : s.Reaches R) :
    (Store.ofJson j s).1.Reaches R ∧ (Store.ofJson j s).2.Reaches R := by
  cases j with
  | null | boolean | integer | number | string => exact ⟨trivial, h⟩
  | array js =>
      obtain ⟨hitems, hs⟩ := ofJsonItems js h
      exact ⟨trivial, hs.newArray fun v hv => hitems v (List.mem_toArray.mp hv)⟩
  | object fs =>
      obtain ⟨hfields, hs⟩ := ofJsonFields fs h
      exact hs.newObject (Fields.forall_sort hfields)
termination_by structural j

theorem ofJsonItems {s : Store} (js : List Json) (h : s.Reaches R) :
    (∀ v ∈ (Store.ofJsonItems js s).1, v.Reaches R) ∧ (Store.ofJsonItems js s).2.Reaches R := by
  cases js with
  | nil => exact ⟨List.forall_mem_nil _, h⟩
  | cons j js =>
      obtain ⟨hv, h₁⟩ := ofJson j h
      obtain ⟨hvs, h₂⟩ := ofJsonItems js h₁
      exact ⟨List.forall_mem_cons.mpr ⟨hv, hvs⟩, h₂⟩
termination_by structural js

theorem ofJsonFields {s : Store} (fs : List (String × Json)) (h : s.Reaches R) :
    (∀ field ∈ (Store.ofJsonFields fs s).1, field.2.Reaches R) ∧
      (Store.ofJsonFields fs s).2.Reaches R := by
  cases fs with
  | nil => exact ⟨List.forall_mem_nil _, h⟩
  | cons field fs =>
      obtain ⟨key, j⟩ := field
      obtain ⟨hv, h₁⟩ := ofJson j h
      obtain ⟨hvs, h₂⟩ := ofJsonFields fs h₁
      exact ⟨List.forall_mem_cons.mpr ⟨hv, hvs⟩, h₂⟩
termination_by structural fs

end

section

variable (hnative : ∀ n, R.native n)

include hnative

theorem natives {α : Type} (names : List α) (name : α → String) (native : α → Native) :
    ∀ field ∈ names.map fun n => (name n, Value.native (native n)), field.2.Reaches R := by
  rw [List.forall_mem_map]
  exact fun n _ => hnative (native n)

theorem newBuilderModule (h : s.Reaches R) :
    s.newBuilderModule.1.Reaches R ∧ s.newBuilderModule.2.Reaches R :=
  (h.newTrace .undefined).newObject (List.forall_mem_append.mpr
    ⟨natives hnative Builder.names id .builder, List.forall_mem_singleton.mpr trivial⟩)

theorem newCallbacksModule (h : s.Reaches R) :
    s.newCallbacksModule.1.Reaches R ∧ s.newCallbacksModule.2.Reaches R := by
  obtain ⟨hoperations, hs⟩ := h.newObject
    (natives hnative Operation.names id .trace)
  rw [newCallbacksModule_eq]
  refine hs.newObject (List.forall_mem_append.mpr ⟨natives hnative Event.all Event.name .host, ?_⟩)
  exact List.forall_mem_cons.mpr ⟨hnative .respond, List.forall_mem_singleton.mpr hoperations⟩

end

end Store.Reaches

/-! ## The modules of the instrumentation -/

namespace Instrument

/-- Where the modules of an instrumented program come to be. -/
@[match_pattern] abbrev builderPlace : Nat := 1

@[match_pattern] abbrev operationsPlace : Nat := 2

@[match_pattern] abbrev callbacksPlace : Nat := 3

/-- The constructors of traces, and the undefined trace, which has an identity. -/
def builderFields (identity : Nat) : Fields Value :=
  (Builder.names.map fun name => (name, Value.native (.builder name))) ++
    [("undefined_", .trace identity .undefined)]

def callbacksFields : Fields Value :=
  (Event.all.map fun event => (event.name, Value.native (.host event))) ++
    [("respond", .native .respond), ("trace", .object operationsPlace)]

def modulesKept (identity : Nat) : Nat → Option (Fields Value)
  | builderPlace => some (builderFields identity)
  | operationsPlace => some operationFields
  | callbacksPlace => some callbacksFields
  | _ => none

end Instrument

/-- A value that has no parts and is no trace, or else is a plain trace. -/
def Value.Inert : Value → Prop
  | .array _ | .object _ | .native _ => False
  | .function _ closure => closure.Proper reread
  | .trace _ t => Trace.Plain t
  | _ => True

/-- What the variables of the instrumentation hold. -/
structure Instrument.Holds (n : String) (v : Value) : Prop where
  builder : n = standard.options.expBinding → v = .object builderPlace
  callbacks : n = standard.options.callbacksBinding → v = .object callbacksPlace
  generated : Generated n → v.Inert

/-- The realm of an instrumented program. -/
def Realm.instrumented (identity : Nat) : Realm where
  vocabulary := reread
  native _ := True
  kept := modulesKept identity
  hidden := Holds
  hidden_function {n _} hself hclosure _ := by
    have hne {m : String} (hm : standard.options.isReserved m = true) : n ≠ m := by
      rintro rfl
      exact Bool.false_ne_true (hself.symm.trans hm)
    exact ⟨fun h => absurd h (hne (by decide)), fun h => absurd h (hne (by decide)), fun _ => hclosure⟩

end TraceLoom
