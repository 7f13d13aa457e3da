import TraceLoom.Execution.Builder

/-!
Arguments of native functions fail with type errors, or because there is no such function.
-/

namespace TraceLoom

/-- The errors of wrong arguments. -/
def EvalError.IsMistake : EvalError → Prop
  | .typeError .. | .notAFunction _ => True
  | _ => False

def OnlyMistakes {α : Type} (x : Except EvalError α) : Prop :=
  ∀ e, x = .error e → e.IsMistake

namespace OnlyMistakes

variable {α β : Type}

theorem pure (x : α) : OnlyMistakes (pure x : Except EvalError α) :=
  nofun

theorem throw {e : EvalError} (h : e.IsMistake) : OnlyMistakes (throw e : Except EvalError α) := by
  rintro _ ⟨⟩
  exact h

theorem bind {x : Except EvalError α} {f : α → Except EvalError β} (hx : OnlyMistakes x)
    (hf : ∀ a, OnlyMistakes (f a)) : OnlyMistakes (x >>= f) := by
  cases x with
  | error e => exact throw (hx e rfl)
  | ok a => exact hf a

theorem mapM {f : α → Except EvalError β} (hf : ∀ a, OnlyMistakes (f a)) (xs : List α) :
    OnlyMistakes (xs.mapM f) := by
  induction xs with
  | nil => exact .pure _
  | cons x xs ih =>
      rw [List.mapM_cons]
      exact (hf x).bind fun _ => ih.bind fun _ => .pure _

variable (a : Arguments) (i : Nat)

theorem asTrace (v : Value) : OnlyMistakes (a.asTrace v) := by
  cases v <;> first | exact .pure _ | exact throw trivial

theorem asString (v : Value) : OnlyMistakes (a.asString v) := by
  cases v <;> first | exact .pure _ | exact throw trivial

theorem trace : OnlyMistakes (a.trace i) :=
  asTrace a _

theorem string : OnlyMistakes (a.string i) :=
  asString a _

theorem number : OnlyMistakes (a.number i) := by
  unfold Arguments.number
  split <;> first | exact .pure _ | exact throw trivial

theorem boolean : OnlyMistakes (a.boolean i) := by
  unfold Arguments.boolean
  split <;> first | exact .pure _ | exact throw trivial

theorem traces : OnlyMistakes (a.traces i) := by
  unfold Arguments.traces
  split
  · exact mapM (asTrace a) _
  · exact throw trivial

theorem strings : OnlyMistakes (a.strings i) := by
  unfold Arguments.strings
  split
  · exact mapM (asString a) _
  · exact throw trivial

theorem fields : OnlyMistakes (a.fields i) := by
  unfold Arguments.fields
  split
  · exact mapM (fun field : String × Value => (asTrace a field.2).bind fun _ => .pure _) _
  · exact throw trivial

theorem target : OnlyMistakes (a.target i) := by
  refine (trace a i).bind fun t => ?_
  cases t.toTarget? with
  | none => exact throw trivial
  | some x => exact .pure x

theorem callback : OnlyMistakes a.callback := by
  unfold Arguments.callback
  split
  · split
    · exact .pure _
    · exact throw trivial
  · exact throw trivial

/-- Building a trace fails for its arguments only. -/
theorem build : OnlyMistakes (Builder.build a) := by
  unfold Builder.build
  split
  case h_8 | h_9 =>
    refine (string a 0).bind fun symbol => ?_
    split
    · first
        | exact (trace a 1).bind fun _ => (trace a 2).bind fun _ => .pure _
        | exact (trace a 1).bind fun _ => .pure _
    · exact throw trivial
  all_goals
    repeat' first
      | exact .pure _
      | exact throw trivial
      | exact number a _
      | exact boolean a _
      | exact string a _
      | exact trace a _
      | exact traces a _
      | exact strings a _
      | exact fields a _
      | exact target a _
      | refine bind ?_ fun _ => ?_

theorem captures : OnlyMistakes (Builder.captures a) :=
  (trace a 0).bind fun _ => (strings a 1).bind fun _ => .pure _

theorem arity : OnlyMistakes (Operation.arity a i) := by
  refine (number a i).bind fun x => ?_
  split
  · exact .pure _
  · exact throw trivial

/-- Asking for an operation of the recorder fails for its arguments only. -/
theorem ofArguments : OnlyMistakes (Operation.ofArguments a) := by
  unfold Operation.ofArguments
  split
  all_goals
    repeat' first
      | exact .pure _
      | exact throw trivial
      | exact string a _
      | exact trace a _
      | exact traces a _
      | exact target a _
      | exact arity a _
      | refine bind ?_ fun _ => ?_

end OnlyMistakes

/-- What is taken for a callback can be called. -/
theorem Arguments.getLast?_of_callback {a : Arguments} {v : Value} (h : a.callback = .ok v) :
    a.values.getLast? = some v ∧ v.isCallable = true := by
  unfold Arguments.callback at h
  split at h
  · split at h
    · cases h
      exact ⟨‹_›, ‹_›⟩
    · cases h
  · cases h

end TraceLoom
