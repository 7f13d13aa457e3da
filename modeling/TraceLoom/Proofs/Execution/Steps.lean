import TraceLoom.Execution.Run

/-!
What the basic steps of a machine do.
-/

namespace TraceLoom

open Script

namespace Machine

variable {α β : Type} (m : Machine)

@[simp] theorem run_get : m.run get = (.ok m, m) := rfl

@[simp] theorem run_set (n : Machine) : m.run (set n) = (.ok ⟨⟩, n) := rfl

@[simp] theorem run_modify (f : Machine → Machine) : m.run (modify f) = (.ok ⟨⟩, f m) := rfl

@[simp] theorem run_modifyGet (f : Machine → α × Machine) :
    m.run (modifyGet f) = (.ok (f m).1, (f m).2) := rfl

@[simp] theorem run_make (f : Store → α × Store) :
    m.run (Running.make f) = (.ok (f m.store).1, { m with store := (f m.store).2 }) := rfl

@[simp] theorem run_change (f : Store → Store) :
    m.run (Running.change f) = (.ok ⟨⟩, { m with store := f m.store }) := rfl

@[simp] theorem run_ofExcept (x : Except EvalError α) :
    m.run (MonadExcept.ofExcept x) = (x, m) := by
  cases x <;> rfl

@[simp] theorem run_read (f : Store → Except EvalError α) :
    m.run (Running.read f) = (f m.store, m) := by
  rw [Running.read, run_bind, run_get]
  exact run_ofExcept m _

@[simp] theorem run_permit (callee : Option Expr) (function : Value) (args : List Value) :
    m.run (Running.permit callee function args) = (m.gate callee function args m.store, m) := by
  rw [Running.permit, run_bind, run_get]
  exact run_ofExcept m _

@[simp] theorem run_adapting (step : Adapting α) :
    m.run (Running.adapting step) =
      ((m.adapter.run step).1.mapError .trace, { m with adapter := (m.adapter.run step).2 }) := by
  rw [Running.adapting, run_bind, run_get]
  dsimp only
  rw [run_bind, run_set]
  exact run_ofExcept _ _

@[simp] theorem run_observe (step : Running α) :
    m.run (Running.observe step) = (.ok (m.run step).1, (m.run step).2) := rfl

theorem run_bind_of_ok {m n : Machine} {x : Running α} {a : α} (h : m.run x = (.ok a, n))
    (f : α → Running β) : m.run (x >>= f) = n.run (f a) := by
  rw [run_bind, h]

end Machine

end TraceLoom
