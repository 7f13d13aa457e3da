import TraceLoom.Proofs.Execution.Reading

/-!
What is made of several parts: values from JSON, modules, arrays of traces, and the scope with which
a program starts.
-/

namespace TraceLoom

open Script

variable {P : Expectation} {W W' : World} {s t : Store}

/-- Two makings give corresponding results in corresponding stores. -/
def Makes {α β : Type} (P : Expectation) (W : World) (r : World → α → β → Prop) (x : α × Store)
    (y : β × Store) : Prop :=
  ∃ W', W ≤ W' ∧ StoreRel P W' x.2 y.2 ∧ r W' x.1 y.1

namespace StoreRel

mutual

theorem ofJson {W : World} {s t : Store} (j : Json) (h : StoreRel P W s t) :
    Makes P W (ValueRel P) (Store.ofJson j s) (Store.ofJson j t) := by
  cases j with
  | null => exact ⟨W, World.le_refl W, h, .null⟩
  | boolean b => exact ⟨W, World.le_refl W, h, .boolean b⟩
  | integer | number => exact ⟨W, World.le_refl W, h, .number _⟩
  | string u => exact ⟨W, World.le_refl W, h, .string u⟩
  | array js =>
      obtain ⟨W₁, hle, h₁, hitems⟩ := ofJsonItems js h
      obtain ⟨h₂, hv⟩ := h₁.newArray (Store.ofJsonItems js s).1.toArray
        (Store.ofJsonItems js t).1.toArray hitems
      exact ⟨_, World.le_trans hle (W₁.le_addArray _), h₂, hv⟩
  | object fs =>
      obtain ⟨W₁, hle, h₁, hfields⟩ := ofJsonFields fs h
      obtain ⟨h₂, hv⟩ := h₁.newObject (FieldsRel.sort hfields)
      exact ⟨_, World.le_trans hle (W₁.le_addObject _), h₂, hv⟩
termination_by structural j

theorem ofJsonItems {W : World} {s t : Store} (js : List Json) (h : StoreRel P W s t) :
    Makes P W (fun W' => List.Forall₂ (ValueRel P W')) (Store.ofJsonItems js s)
      (Store.ofJsonItems js t) := by
  cases js with
  | nil => exact ⟨W, World.le_refl W, h, .nil⟩
  | cons j js =>
      obtain ⟨W₁, hle, h₁, hv⟩ := ofJson j h
      obtain ⟨W₂, hle', h₂, hvs⟩ := ofJsonItems js h₁
      exact ⟨W₂, World.le_trans hle hle', h₂, .cons (hv.mono hle') hvs⟩
termination_by structural js

theorem ofJsonFields {W : World} {s t : Store} (fs : List (String × Json))
    (h : StoreRel P W s t) :
    Makes P W (FieldsRel P) (Store.ofJsonFields fs s) (Store.ofJsonFields fs t) := by
  cases fs with
  | nil => exact ⟨W, World.le_refl W, h, .nil⟩
  | cons field fs =>
      obtain ⟨key, j⟩ := field
      obtain ⟨W₁, hle, h₁, hv⟩ := ofJson j h
      obtain ⟨W₂, hle', h₂, hvs⟩ := ofJsonFields fs h₁
      exact ⟨W₂, World.le_trans hle hle', h₂, .cons ⟨rfl, hv.mono hle'⟩ hvs⟩
termination_by structural fs

end

end StoreRel

/-! ## Arrays of traces -/

/-- A value that is a given trace. -/
def IsTraceOf (u : Trace) (v : Value) : Prop :=
  ∃ identity, v = .trace identity u

/-- Puts one more trace behind values. -/
def Store.appendTrace (made : Array Value × Store) (u : Trace) : Array Value × Store :=
  (made.1.push (made.2.newTrace u).1, (made.2.newTrace u).2)

theorem newTraces_eq (us : List Trace) (s : Store) :
    s.newTraces us = (us.foldl Store.appendTrace (#[], s)).2.newArray
      (us.foldl Store.appendTrace (#[], s)).1 :=
  rfl

theorem StoreRel.newTraces (h : StoreRel P W s t) (us : List Trace) :
    Makes P W (ValueRel P) (s.newTraces us) (t.newTraces us) := by
  have hfold {W : World} {s t : Store} (xs ys : Array Value) (h : StoreRel P W s t)
      (hxs : List.Forall₂ (ValueRel P W) xs.toList ys.toList) :
      Makes P W (fun W' xs ys => List.Forall₂ (ValueRel P W') xs.toList ys.toList)
        (us.foldl Store.appendTrace (xs, s)) (us.foldl Store.appendTrace (ys, t)) := by
    induction us generalizing W s t xs ys with
    | nil => exact ⟨W, World.le_refl W, h, hxs⟩
    | cons u us ih =>
        obtain ⟨h₁, hv⟩ := h.newTrace u
        have hle := W.le_addIdentity t.identities
        obtain ⟨W₂, hle', h₂, hvs⟩ := ih (xs.push (s.newTrace u).1)
          (ys.push (t.newTrace u).1) h₁
          (by simpa using List.rel_append (hxs.imp fun _ _ hx => hx.mono hle) (.cons hv .nil))
        exact ⟨W₂, World.le_trans hle hle', h₂, hvs⟩
  obtain ⟨W₁, hle, h₁, hvs⟩ := hfold #[] #[] h .nil
  obtain ⟨h₂, hv⟩ := h₁.newArray _ _ hvs
  exact ⟨_, World.le_trans hle (W₁.le_addArray _), h₂, hv⟩

/-- An array of given traces, made by the instrumentation for its own use. -/
theorem Store.newTraces_grows (us : List Trace) (t : Store) :
    ∃ place, (t.newTraces us).1 = .array place ∧ t.Grows (t.newTraces us).2 ∧
      List.Forall₂ IsTraceOf us ((t.newTraces us).2.items place).toList := by
  have hfold (values : Array Value) (t : Store) :
      t.Grows (us.foldl appendTrace (values, t)).2 ∧
        ∃ made, (us.foldl appendTrace (values, t)).1 = values ++ made ∧
          List.Forall₂ IsTraceOf us made.toList := by
    induction us generalizing values t with
    | nil => exact ⟨.refl t, #[], by simp, .nil⟩
    | cons u us ih =>
        obtain ⟨hgrows, made, hmade, hus⟩ := ih (values.push (t.newTrace u).1) (t.newTrace u).2
        refine ⟨(Grows.newTrace u t).trans hgrows, #[(t.newTrace u).1] ++ made, ?_, ?_⟩
        · rw [List.foldl_cons, appendTrace, hmade, Array.push_eq_append, Array.append_assoc]
        · simpa using And.intro ⟨_, rfl⟩ hus
  obtain ⟨hgrows, made, hmade, hus⟩ := hfold #[] t
  refine ⟨(us.foldl appendTrace (#[], t)).2.arrays.size, rfl, hgrows.trans (.newArray _ _), ?_⟩
  rw [newTraces_eq, items_newArray, hmade, Array.empty_append]
  exact hus

/-! ## Modules -/

theorem FieldsRel.of_natives (W : World) (names : List String) (native : String → Native) :
    FieldsRel P W (names.map fun name => (name, Value.native (native name)))
      (names.map fun name => (name, Value.native (native name))) :=
  List.forall₂_map_left_iff.mpr (List.forall₂_map_right_iff.mpr
    (List.forall₂_same.mpr fun _ _ => ⟨rfl, .native _⟩))

theorem StoreRel.newBuilderModule (h : StoreRel P W s t) :
    Makes P W (ValueRel P) s.newBuilderModule t.newBuilderModule := by
  obtain ⟨h₁, hmissing⟩ := h.newTrace .undefined
  have hlast : FieldsRel P (W.addIdentity t.identities)
      [("undefined_", (s.newTrace .undefined).1)] [("undefined_", (t.newTrace .undefined).1)] :=
    .cons ⟨rfl, hmissing⟩ .nil
  obtain ⟨h₂, hv⟩ :=
    h₁.newObject (List.rel_append (FieldsRel.of_natives _ Builder.names .builder) hlast)
  exact ⟨_, World.le_trans (W.le_addIdentity _) (World.le_addObject _ _), h₂, hv⟩

theorem newCallbacksModule_eq (s : Store) :
    s.newCallbacksModule = (s.newObject operationFields).2.newObject
      ((Event.all.map fun event => (event.name, Value.native (.host event))) ++
        [("respond", .native .respond), ("trace", (s.newObject operationFields).1)]) :=
  rfl

theorem StoreRel.newCallbacksModule (h : StoreRel P W s t) :
    Makes P W (ValueRel P) s.newCallbacksModule t.newCallbacksModule := by
  obtain ⟨h₁, hoperations⟩ := h.newObject (FieldsRel.of_natives _ Operation.names .trace)
  have hevents : FieldsRel P (W.addObject t.objects.size)
      (Event.all.map fun event => (event.name, Value.native (.host event)))
      (Event.all.map fun event => (event.name, Value.native (.host event))) :=
    List.forall₂_map_left_iff.mpr (List.forall₂_map_right_iff.mpr
      (List.forall₂_same.mpr fun _ _ => ⟨rfl, .native _⟩))
  have hlast : FieldsRel P (W.addObject t.objects.size)
      [("respond", .native .respond), ("trace", (s.newObject operationFields).1)]
      [("respond", .native .respond), ("trace", (t.newObject operationFields).1)] :=
    .cons ⟨rfl, .native .respond⟩ (.cons ⟨rfl, hoperations⟩ .nil)
  obtain ⟨h₂, hv⟩ := h₁.newObject (List.rel_append hevents hlast)
  exact ⟨_, World.le_trans (W.le_addObject _) (World.le_addObject _ _), h₂, hv⟩

/-- The instrumentation gets a module of its own. -/
theorem StoreRel.newBuilderModule_right (h : StoreRel P W s t) :
    t.Grows t.newBuilderModule.2 ∧ IsBuilderModule W t.newBuilderModule.2 t.newBuilderModule.1 := by
  have hfresh : t.objects.size ∉ W.objects := fun hmem => Nat.lt_irrefl _ (h.objects.lt _ hmem)
  refine ⟨(Store.Grows.newTrace .undefined t).trans (.newObject _ _),
    t.objects.size, t.identities, rfl, hfresh, ?_, ?_⟩
  · simp [Store.newBuilderModule, Store.newObject, Store.newTrace]
  · exact Store.properties_newObject _ (t.newTrace .undefined).2

theorem StoreRel.newCallbacksModule_right (h : StoreRel P W s t) :
    t.Grows t.newCallbacksModule.2 ∧
      IsCallbacksModule W t.newCallbacksModule.2 t.newCallbacksModule.1 := by
  have hfresh (place : Nat) (hge : t.objects.size ≤ place) : place ∉ W.objects := fun hmem =>
    Nat.lt_irrefl _ (Nat.lt_of_lt_of_le (h.objects.lt _ hmem) hge)
  have hsize : (t.newObject operationFields).2.objects.size = t.objects.size + 1 := by
    simp [Store.newObject]
  have hlt : t.objects.size < (t.newObject operationFields).2.objects.size :=
    hsize ▸ Nat.lt_succ_self _
  rw [newCallbacksModule_eq]
  refine ⟨(Store.Grows.newObject _ t).trans (.newObject _ _),
    (t.newObject operationFields).2.objects.size, t.objects.size, rfl,
    hfresh _ (Nat.le_of_lt hlt), ?_, ?_, hfresh _ (Nat.le_refl _), ?_, ?_⟩
  · simp [Store.newObject]
  · rw [Store.properties_newObject]
    simp [Fields.get?, Event.all, Event.name, Store.newObject]
  · exact Nat.lt_of_lt_of_le hlt (Store.Grows.newObject _ _).objects
  · rw [(Store.Grows.newObject _ _).properties _ hlt, Store.properties_newObject]

end TraceLoom
