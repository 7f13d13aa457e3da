import TraceLoom.Proofs.Execution.Delivery
import TraceLoom.Session

/-!
Sessions between calls.  A call that succeeds leaves nothing behind: every callback that was queued
has run, and what was written to the console is in the outcome.  As long as calls succeed, the next
one starts with an empty queue, and its output is what it writes itself.
-/

namespace TraceLoom

open Running

variable {α β : Type} {m m' : Machine} {budget : Nat}

/-! ## Queues that were worked off -/

namespace Machine

theorem exists_of_run_bind {x : Running α} {f : α → Running β} {b : β}
    (h : m.run (x >>= f) = (.ok b, m')) :
    ∃ a n, m.run x = (.ok a, n) ∧ n.run (f a) = (.ok b, m') := by
  rw [run_bind] at h
  generalize m.run x = result at h
  obtain ⟨_ | a, n⟩ := result
  · cases h
  · exact ⟨a, n, rfl, h⟩

theorem tasks_of_drain {limit remaining : Nat}
    (h : m.run (Running.drain limit remaining) = (.ok (), m')) : m'.tasks.toList = [] := by
  induction remaining generalizing m with
  | zero =>
      cases hpop : m.tasks.pop? with
      | none =>
          rw [run_drain_of_none hpop] at h
          cases h
          exact Queue.pop?_eq_none_iff.mp hpop
      | some popped =>
          rw [run_drain_zero hpop] at h
          cases h
  | succ remaining ih =>
      cases hpop : m.tasks.pop? with
      | none =>
          rw [run_drain_of_none hpop] at h
          cases h
          exact Queue.pop?_eq_none_iff.mp hpop
      | some popped =>
          rw [run_drain_succ hpop] at h
          obtain ⟨-, n, -, h⟩ := exists_of_run_bind h
          exact ih h

theorem tasks_of_runProgram {p : Script.Program} {v : Value}
    (h : m.run (runProgram budget p) = (.ok v, m')) : m'.tasks.toList = [] := by
  rw [runProgram_eq] at h
  obtain ⟨_, n₁, -, h⟩ := exists_of_run_bind h
  obtain ⟨_, n₂, -, h⟩ := exists_of_run_bind h
  obtain ⟨_, n₃, -, h⟩ := exists_of_run_bind h
  obtain ⟨⟨⟩, n₄, hdrain, h⟩ := exists_of_run_bind h
  cases h
  exact tasks_of_drain hdrain

theorem tasks_of_request {body : Json} {answer : Option Json}
    (h : m.run (request budget body) = (.ok answer, m')) : m'.tasks.toList = [] := by
  obtain ⟨_, n₁, hget, h⟩ := exists_of_run_bind h
  split at h
  · cases h
  · obtain ⟨_, n₂, -, h⟩ := exists_of_run_bind h
    obtain ⟨_, n₃, -, h⟩ := exists_of_run_bind h
    obtain ⟨_, n₄, -, h⟩ := exists_of_run_bind h
    obtain ⟨⟨⟩, n₅, hdrain, h⟩ := exists_of_run_bind h
    have htasks : n₅.tasks.toList = [] := tasks_of_drain hdrain
    cases h
    exact htasks

end Machine

/-! ## Calls of a session -/

namespace Session

variable {s : Session}

inductive Call where
  | run
  | request (body : Json)

def call (budget : Nat) (s : Session) : Call → Except EvalError (Outcome TraceLoom.Outcome) × Session
  | .run => ((s.run budget).1.map fun o => ⟨.value o.result, o.output⟩, (s.run budget).2)
  | .request body =>
      ((s.request budget body).1.map fun o => ⟨.answer o.result, o.output⟩,
        (s.request budget body).2)

/-- Calls one after the other, up to the first that fails. -/
def callAll (budget : Nat) (s : Session) :
    List Call → Except EvalError (List (Outcome TraceLoom.Outcome)) × Session
  | [] => (.ok [], s)
  | c :: calls =>
    match s.call budget c with
    | (.error e, s) => (.error e, s)
    | (.ok outcome, s) => ((s.callAll budget calls).1.map (outcome :: ·), (s.callAll budget calls).2)

/-- Nothing is left of the calls before. -/
structure Idle (s : Session) : Prop where
  tasks : s.machine.tasks.toList = []
  output : s.machine.output = []

theorem idle_perform {step : Running α} {outcome : Outcome α}
    (htasks : ∀ v m', s.machine.run step = (.ok v, m') → m'.tasks.toList = [])
    (h : (s.perform step).1 = .ok outcome) : (s.perform step).2.Idle := by
  rw [perform] at h ⊢
  cases hrun : s.machine.run step with
  | mk result m' =>
      cases result with
      | error e =>
          rw [hrun] at h
          cases h
      | ok v => exact ⟨htasks v m' hrun, rfl⟩

theorem idle_run {outcome : Outcome Value} (h : (s.run budget).1 = .ok outcome) :
    (s.run budget).2.Idle := by
  have hidle {outcome : Outcome Value}
      (h : (s.perform (do Machine.reset; Machine.runProgram budget s.program)).1 = .ok outcome) :
      (s.perform (do Machine.reset; Machine.runProgram budget s.program)).2.Idle := by
    refine idle_perform (fun v m' hrun => ?_) h
    obtain ⟨_, n, -, hrun⟩ := Machine.exists_of_run_bind hrun
    exact Machine.tasks_of_runProgram hrun
  rw [run] at h ⊢
  generalize s.perform _ = performed at h hidle ⊢
  obtain ⟨_ | outcome, s'⟩ := performed
  · cases h
  · exact ⟨(hidle rfl).tasks, (hidle rfl).output⟩

/-- A call that succeeds leaves nothing to the calls behind it. -/
theorem idle_call {c : Call} {outcome : Outcome TraceLoom.Outcome}
    (h : (s.call budget c).1 = .ok outcome) : (s.call budget c).2.Idle := by
  have hok {α β : Type} {x : Except EvalError α} {f : α → β} {y : β} (h : x.map f = .ok y) :
      ∃ a, x = .ok a := by
    cases x with
    | error e => cases h
    | ok a => exact ⟨a, rfl⟩
  cases c with
  | run =>
      obtain ⟨_, hrun⟩ := hok h
      exact idle_run hrun
  | request body =>
      obtain ⟨_, hrequest⟩ := hok h
      exact idle_perform (fun _ _ => Machine.tasks_of_request) hrequest

/-- As long as calls succeed, nothing is left between them. -/
theorem idle_callAll (hs : s.Idle) {calls : List Call} {outcomes : List (Outcome TraceLoom.Outcome)}
    (h : (s.callAll budget calls).1 = .ok outcomes) : (s.callAll budget calls).2.Idle := by
  induction calls generalizing s outcomes with
  | nil => exact hs
  | cons c calls ih =>
      have hidle {outcome : Outcome TraceLoom.Outcome} (h : (s.call budget c).1 = .ok outcome) :
          (s.call budget c).2.Idle := idle_call h
      rw [callAll] at h ⊢
      generalize s.call budget c = called at h hidle ⊢
      obtain ⟨_ | outcome, s'⟩ := called
      · cases h
      · dsimp only at h ⊢
        cases hrest : (s'.callAll budget calls).1 with
        | error e =>
            rw [hrest] at h
            cases h
        | ok rest => exact ih (hidle rfl) hrest

end Session

end TraceLoom
