import TraceLoom.Proofs.Execution.Aloof
import TraceLoom.Proofs.Instrument.Rereading

/-!
Calls that a recording session has seen before.  When a session makes the same calls once more, they
succeed with the same outcomes and its trace stays as it is.
-/

namespace TraceLoom

open Script Running Instrument

namespace Session

variable {text : String} {config : Config} {network : Network} {s : Session}

/-- A session that records starts with a new recorder and an instrumented program. -/
theorem recording_eq_ok (hconfig : config.instrument = .default)
    (h : recording text config network = .ok s) :
    s.machine = .new config (.new (some .new) network) ∧ IsInstrumented reread s.program := by
  obtain ⟨instrumented, hinstrument, h⟩ := exists_of_bind h
  obtain ⟨p, hparse, h⟩ := exists_of_bind h
  rw [hconfig] at hinstrument
  obtain ⟨q, hq, hsource⟩ := exists_of_bind hinstrument
  obtain rfl := Except.ok.inj hsource
  obtain ⟨body, rfl, hbody⟩ := exists_written hq
  obtain rfl := Except.ok.inj h
  exact ⟨rfl, isInstrumented_of_parse hbody (eq_ok_of_mapError hparse)⟩

/-- Running again what was already observed changes nothing.  When a session that records has made
some calls that begin with a run, each with success, then it can make them once more: all of them
succeed, with the same values, lines and answers, and the trace stays exactly as it is. -/
theorem repeats_of_recording (hrecording : recording text config network = .ok s)
    (hconfig : config.instrument = .default) {budget : Nat} {calls : List Call}
    {outcomes : List (Outcome TraceLoom.Outcome)}
    (hok : (s.callAll budget (.run :: calls)).1 = .ok outcomes)
    (hinserted : s.RecordsByInsertion budget (.run :: calls)) :
    (s.callAll budget (.run :: calls)).2.Repeats budget (.run :: calls) outcomes := by
  obtain ⟨hmachine, hp⟩ := recording_eq_ok hconfig hrecording
  by_cases hrequire : ∃ pos params fbody, Stmt.function pos "require" params fbody ∈ s.program
  · -- its modules are out of its reach, and so is the trace
    obtain ⟨pos, params, fbody, hrequire⟩ := hrequire
    exact repeats_of_require hmachine hrequire hok
  · exact repeats_of_instrumented hconfig hmachine hp
      (fun pos params fbody hmem => hrequire ⟨pos, params, fbody, hmem⟩) hok hinserted

/-! ## A greeting -/

/-- Whether calls succeed without a value and write the given lines. -/
def completes (s : Session) (budget : Nat) (calls : List Call) (lines : List (List String)) : Bool :=
  match (s.callAll budget calls).1 with
  | .error _ => false
  | .ok outcomes => outcomes.map (·.output) == lines &&
      outcomes.all fun o => Observation.isCompleted ⟨.ok o.result, o.output⟩

theorem callAll_of_completes {budget : Nat} {calls : List Call} {lines : List (List String)}
    (h : s.completes budget calls lines = true) :
    (s.callAll budget calls).1 = .ok (lines.map (⟨.value .undefined, ·⟩)) := by
  rw [completes] at h
  split at h
  · cases h
  · rename_i outcomes hok
    obtain ⟨hlines, hall⟩ := Bool.and_eq_true_iff.mp h
    rw [hok, ← eq_of_beq hlines, List.map_map]
    refine congrArg Except.ok ((List.map_id _).symm.trans (List.map_congr_left fun o ho => ?_))
    have hcompleted := List.all_eq_true.mp hall o ho
    unfold Observation.isCompleted at hcompleted
    split at hcompleted
    · rename_i hseen
      obtain ⟨hresult, -⟩ := Observation.mk.inj hseen
      exact congrArg (Outcome.mk · o.output) (Except.ok.inj hresult)
    · cases hcompleted

theorem repeats_of_recording_greeting : ∃ s outcomes,
    recording "console.log('hi');" .default (.ofRoutes []) = .ok s ∧
      Config.default.instrument = .default ∧
      (s.callAll 1 [.run, .run]).1 = .ok outcomes ∧ s.RecordsByInsertion 1 [.run, .run] ∧
      (s.callAll 1 [.run, .run]).2.Repeats 1 [.run, .run] outcomes := by
  have hsession : ((recording "console.log('hi');" .default (.ofRoutes [])).toOption.any fun s =>
      s.completes 1 [.run, .run] [["hi"], ["hi"]] &&
        (s.guarded (.trace .noOpenBlock)).completes 1 [.run, .run] [["hi"], ["hi"]]) = true := by
    decide +kernel
  cases hrecording : recording "console.log('hi');" .default (.ofRoutes []) with
  | error e =>
      rw [hrecording] at hsession
      cases hsession
  | ok s =>
      rw [hrecording] at hsession
      obtain ⟨hplain, hguarded⟩ := Bool.and_eq_true_iff.mp hsession
      have hok := callAll_of_completes hplain
      have hinserted : s.RecordsByInsertion 1 [.run, .run] :=
        ⟨.noOpenBlock, (callAll_of_completes hguarded).trans hok.symm⟩
      exact ⟨s, _, rfl, rfl, hok, hinserted, repeats_of_recording hrecording rfl hok hinserted⟩

end Session

end TraceLoom
