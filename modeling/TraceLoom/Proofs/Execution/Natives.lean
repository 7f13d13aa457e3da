import TraceLoom.Proofs.Execution.Callbacks
import TraceLoom.Proofs.Execution.Mistakes

/-!
Native functions that the program calls itself mean the same on both sides.  Operations of the
recorder are not among them: the gate lets only inserted calls of those pass.
-/

namespace TraceLoom

open Script Instrument Running

variable {P : Expectation} {W W' : World} {m m' n n' : Machine} {s s' : Store}

/-! ## Arguments -/

/-- The same function with corresponding arguments. -/
structure ArgumentsRel (P : Expectation) (W : World) (a a' : Arguments) : Prop where
  operation : a'.operation = a.operation
  values : List.Forall₂ (ValueRel P W) a.values a'.values
  store : StoreRel P W a.store a'.store

theorem mapM_eq_of_forall₂ {α β γ ε : Type} {r : α → β → Prop} {f : α → Except ε γ}
    {g : β → Except ε γ} (hfg : ∀ x y, r x y → g y = f x) {xs : List α} {ys : List β}
    (h : List.Forall₂ r xs ys) : ys.mapM g = xs.mapM f := by
  induction h with
  | nil => rfl
  | cons hxy _ ih => rw [List.mapM_cons, List.mapM_cons, hfg _ _ hxy, ih]

namespace ArgumentsRel

variable {a a' : Arguments} (h : ArgumentsRel P W a a')

include h

theorem value (i : Nat) : ValueRel P W (a.value i) (a'.value i) :=
  ValueRel.getD (rel_getElem? h.values i)

theorem mismatch_eq (expected : String) {v v' : Value} (hv : ValueRel P W v v') :
    a'.mismatch expected v' = a.mismatch expected v := by
  rw [Arguments.mismatch, Arguments.mismatch, h.operation, hv.describe_eq]

theorem asTrace_eq {v v' : Value} (hv : ValueRel P W v v') : a'.asTrace v' = a.asTrace v := by
  have hmismatch := congrArg (Except.error (α := Trace)) (h.mismatch_eq "a trace expression" hv)
  cases hv <;> first | exact hmismatch | rfl

theorem asString_eq {v v' : Value} (hv : ValueRel P W v v') : a'.asString v' = a.asString v := by
  have hmismatch := congrArg (Except.error (α := String)) (h.mismatch_eq "a string" hv)
  cases hv <;> first | exact hmismatch | rfl

theorem string_eq (i : Nat) : a'.string i = a.string i :=
  h.asString_eq (h.value i)

theorem trace_eq (i : Nat) : a'.trace i = a.trace i :=
  h.asTrace_eq (h.value i)

theorem number_eq (i : Nat) : a'.number i = a.number i := by
  have hv := h.value i
  have hmismatch := congrArg (Except.error (α := Float)) (h.mismatch_eq "a number" hv)
  unfold Arguments.number
  generalize a.value i = v, a'.value i = v' at hv hmismatch
  cases hv <;> first | exact hmismatch | rfl

theorem boolean_eq (i : Nat) : a'.boolean i = a.boolean i := by
  have hv := h.value i
  have hmismatch := congrArg (Except.error (α := Bool)) (h.mismatch_eq "a boolean" hv)
  unfold Arguments.boolean
  generalize a.value i = v, a'.value i = v' at hv hmismatch
  cases hv <;> first | exact hmismatch | rfl

theorem traces_eq (i : Nat) : a'.traces i = a.traces i := by
  have hv := h.value i
  have hmismatch := congrArg (Except.error (α := List Trace))
    (h.mismatch_eq "an array of trace expressions" hv)
  unfold Arguments.traces
  generalize a.value i = v, a'.value i = v' at hv hmismatch
  cases hv with
  | array hab => exact mapM_eq_of_forall₂ (fun _ _ hxy => h.asTrace_eq hxy) (h.store.items hab)
  | _ => exact hmismatch

theorem strings_eq (i : Nat) : a'.strings i = a.strings i := by
  have hv := h.value i
  have hmismatch := congrArg (Except.error (α := List String))
    (h.mismatch_eq "an array of strings" hv)
  unfold Arguments.strings
  generalize a.value i = v, a'.value i = v' at hv hmismatch
  cases hv with
  | array hab => exact mapM_eq_of_forall₂ (fun _ _ hxy => h.asString_eq hxy) (h.store.items hab)
  | _ => exact hmismatch

theorem fields_eq (i : Nat) : a'.fields i = a.fields i := by
  have hv := h.value i
  have hmismatch := congrArg (Except.error (α := Fields Trace))
    (h.mismatch_eq "an object of trace expressions" hv)
  unfold Arguments.fields
  generalize a.value i = v, a'.value i = v' at hv hmismatch
  cases hv with
  | object hab =>
      refine mapM_eq_of_forall₂ (fun x y hxy => ?_) (h.store.properties hab)
      rw [hxy.1, h.asTrace_eq hxy.2]
  | _ => exact hmismatch

theorem target_eq (i : Nat) : a'.target i = a.target i := by
  rw [Arguments.target, Arguments.target, h.trace_eq, h.operation]

theorem callback : ResultRel (ValueRel P W) a.callback a'.callback := by
  have hlast : Option.Rel (ValueRel P W) a.values.getLast? a'.values.getLast? := by
    rw [List.getLast?_eq_getElem?, List.getLast?_eq_getElem?, h.values.length_eq]
    exact rel_getElem? h.values _
  unfold Arguments.callback
  rw [h.operation]
  generalize a.values.getLast? = v, a'.values.getLast? = v' at hlast
  cases hlast with
  | none => exact .error nofun
  | some hv =>
      dsimp only
      rw [hv.isCallable_eq, h.mismatch_eq _ hv]
      split
      · exact .ok hv
      · exact .error nofun

theorem build_eq : Builder.build a' = Builder.build a := by
  simp only [Builder.build, h.operation, h.string_eq, h.trace_eq, h.number_eq, h.boolean_eq,
    h.traces_eq, h.strings_eq, h.fields_eq, h.target_eq]

theorem captures_eq : Builder.captures a' = Builder.captures a := by
  simp only [Builder.captures, h.trace_eq, h.strings_eq]

end ArgumentsRel

/-! ## Natives that call nothing -/

namespace Sim

/-- Both machines pass on the same result. -/
theorem ofExcept {α : Type} {x y : Except EvalError α} (hrel : MachineRel P W m m') (heq : y = x)
    (hx : OnlyMistakes x) :
    Sim P W m m' (MonadExcept.ofExcept x) (MonadExcept.ofExcept y) fun W' a b n' =>
      W' = W ∧ b = a ∧ n' = m' := by
  subst heq
  cases y with
  | ok a => exact .pure hrel ⟨rfl, rfl, rfl⟩
  | error e =>
      refine .throw hrel fun cause heq => ?_
      cases heq
      exact hx _ rfl

theorem arguments (hrel : MachineRel P W m m') (operation : String) {vs ws : List Value}
    (hvs : List.Forall₂ (ValueRel P W) vs ws) :
    Sim P W m m' (Native.arguments operation vs) (Native.arguments operation ws)
      fun W' a a' n' => W' = W ∧ ArgumentsRel P W a a' ∧ n' = m' :=
  .get_bind (.pure hrel ⟨rfl, ⟨rfl, hvs, hrel.store⟩, rfl⟩)

/-- Both machines make something in their stores, and nothing else changes. -/
theorem makeValue {f g : Store → Value × Store} (hrel : MachineRel P W m m')
    (h : Makes P W (ValueRel P) (f m.store) (g m'.store)) :
    Sim P W m m' (Running.make f) (Running.make g) fun W' v v' n' =>
      ValueRel P W' v v' ∧ n'.adapter = m'.adapter :=
  (Sim.make hrel h).imp fun _ ⟨hv, hn⟩ => ⟨hv, by rw [hn]⟩

theorem importModule (hrel : MachineRel P W m m') (name : String) :
    Sim P W m m' (Native.importModule name) (Native.importModule name) fun W' v v' n' =>
      ValueRel P W' v v' ∧ n'.adapter = m'.adapter := by
  refine .get_bind ?_
  dsimp only
  rw [hrel.config]
  split
  · exact .makeValue hrel hrel.store.newBuilderModule
  · split
    · exact .makeValue hrel hrel.store.newCallbacksModule
    · exact .throw hrel nofun

theorem build (hrel : MachineRel P W m m') (name : String) {vs ws : List Value}
    (hvs : List.Forall₂ (ValueRel P W) vs ws) :
    Sim P W m m' (Native.build name vs) (Native.build name ws) fun W' v v' n' =>
      ValueRel P W' v v' ∧ n'.adapter = m'.adapter := by
  refine (Sim.arguments hrel name hvs).bind ?_
  rintro _ _ _ a a' - hrel' - ⟨rfl, hargs, rfl⟩
  split
  · refine (Sim.ofExcept hrel' hargs.captures_eq (.captures a)).bind ?_
    rintro _ _ _ _ ts - hrel₁ - ⟨rfl, rfl, rfl⟩
    exact .makeValue hrel₁ (hrel₁.store.newTraces ts)
  · refine (Sim.ofExcept hrel' hargs.build_eq (.build a)).bind ?_
    rintro _ _ _ _ t - hrel₁ - ⟨rfl, rfl, rfl⟩
    obtain ⟨hstore, hv⟩ := hrel₁.store.newTrace t
    exact .makeValue hrel₁ ⟨_, World.le_addIdentity _ _, hstore, hv⟩

theorem log (hrel : MachineRel P W m m') {vs ws : List Value}
    (hvs : List.Forall₂ (ValueRel P W) vs ws) :
    Sim P W m m' (Native.log vs) (Native.log ws) fun _ _ _ n' => n'.adapter = m'.adapter := by
  have htext : ws.map m'.store.inspect = vs.map m.store.inspect :=
    map_eq_map_of_forall₂ hvs fun _ _ hv => hrel.store.inspect_eq hv
  refine .ok (m.run_modify _) (m'.run_modify _) (World.le_refl W) ?_
    (Machine.stays_of_adapter rfl rfl) rfl
  exact { hrel with output := by rw [htext, hrel.output] }

end Sim

end TraceLoom
