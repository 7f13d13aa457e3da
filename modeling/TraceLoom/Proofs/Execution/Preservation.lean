import TraceLoom.Proofs.Execution.Requests

/-!
Instrumentation keeps what a program does.  Run side by side, a program and the instrumented program
have the same results and write the same lines, as long as the recorder does not fail.
-/

namespace TraceLoom

open Script Instrument Running

/-! ## What one sees -/

/-- What a step comes to: the value of a program, or the answer to a request. -/
inductive Outcome where
  | value (v : Value)
  | answer (body : Option Json)

/-- What one sees of a step. -/
structure Observation where
  result : Except EvalError Outcome
  /-- The lines that the step has written to the console. -/
  lines : List String

namespace Machine

/-- What one sees of steps that a machine takes one after the other. -/
def observations (m : Machine) : List (Running Outcome) → List Observation
  | [] => []
  | step :: steps =>
    let (result, m) := m.run step
    let (lines, m) := m.takeLines
    ⟨result, lines⟩ :: m.observations steps

/-- A program is run, then requests are delivered. -/
def course (budget : Nat) (p : Program) (bodies : List Json) : List (Running Outcome) :=
  (Outcome.value <$> runProgram budget p) ::
    bodies.map fun body => Outcome.answer <$> request budget body

/-- Only inserted code calls operations of the recorder: it makes no difference when every other
call of them is answered with an error of the recorder. -/
def RecordsByInsertion (m : Machine) (steps : List (Running Outcome)) : Prop :=
  ∃ t, { m with gate := recorderGate (.trace t) }.observations steps = m.observations steps

end Machine

/-- Of two executions one sees the same, up to where the recorder stops the second one. -/
inductive Alike : List Observation → List Observation → Prop
  | nil : Alike [] []
  | same (seen : Observation) {rest rest' : List Observation} (h : Alike rest rest') :
      Alike (seen :: rest) (seen :: rest')
  | stopped (seen seen' : Observation) {t : TraceError} (h : seen'.result = .error (.trace t))
      (rest rest' : List Observation) : Alike (seen :: rest) (seen' :: rest')

variable {P : Expectation} {W W' : World} {m m' n n' : Machine}

theorem MachineRel.takeLines (h : MachineRel P W m m') :
    m'.lines = m.lines ∧ MachineRel P W m.takeLines.2 m'.takeLines.2 :=
  ⟨congrArg List.reverse h.output, { h with output := rfl }⟩

theorem Sim.map {α β : Type} {x y : Running α} (f : α → β)
    (h : Sim P W m m' x y fun _ a b _ => b = a) :
    Sim P W m m' (f <$> x) (f <$> y) fun _ a b _ => b = a := by
  rw [map_eq_pure_bind, map_eq_pure_bind]
  refine h.bind ?_
  rintro _ _ _ _ _ - hrel - rfl
  exact .pure hrel rfl

/-- A step that both machines take with the same result, then the others. -/
theorem alike_cons (hstops : ∀ e, P.Stops e → ∃ t, e = .trace t) {x y : Running Outcome}
    {steps steps' : List (Running Outcome)} (h : Sim P W m m' x y fun _ a b _ => b = a)
    (hrest : ∀ {W' n n'}, W ≤ W' → MachineRel P W' n n' → m'.Stays W.held n' →
      Alike (n.takeLines.2.observations steps) (n'.takeLines.2.observations steps')) :
    Alike (m.observations (x :: steps)) (m'.observations (y :: steps')) := by
  unfold Machine.observations
  cases h with
  | ok hx hy hle hrel hstays h =>
      rw [hx, hy, h]
      dsimp only [Machine.takeLines]
      rw [hrel.takeLines.1]
      exact .same _ (hrest hle hrel hstays)
  | fail hx hy hle hrel hstays =>
      rw [hx, hy]
      dsimp only [Machine.takeLines]
      rw [hrel.takeLines.1]
      exact .same _ (hrest hle hrel hstays)
  | stop hy _ _ _ _ hstop =>
      obtain ⟨t, rfl⟩ := hstops _ hstop
      rw [hy]
      exact .stopped _ _ rfl _ _

theorem Resting.takeLines (h : Resting P W m m') : Resting P W m.takeLines.2 m'.takeLines.2 :=
  ⟨h.rel.takeLines.2, h.ready, h.held, h.root⟩

theorem alike_requests (hstops : ∀ e, P.Stops e → ∃ t, e = .trace t) (budget : Nat)
    (bodies : List Json) (h : Resting P W m m') :
    Alike (m.observations (bodies.map fun body => Outcome.answer <$> Machine.request budget body))
      (m'.observations
        (bodies.map fun body => Outcome.answer <$> Machine.request budget body)) := by
  induction bodies generalizing W m m' with
  | nil => exact .nil
  | cons body bodies ih =>
      refine alike_cons hstops ((sim_request budget body h).map Outcome.answer)
        fun hle hrel hstays => ?_
      exact ih (h.next hle hrel hstays).takeLines

theorem alike_course (hstops : ∀ e, P.Stops e → ∃ t, e = .trace t) (budget : Nat)
    (bodies : List Json) {p q : Program} (hrel : MachineRel P W m m') (hheld : W.held = [])
    (hroot : m'.AtRoot)
    (hrequire : m'.store.lookup? m'.globals "require" = some (.native .require))
    (hfits : P.Fits p) (hdeclared : "require" ∉ declaredIn p)
    (hinstrument : instrument .default .default p = .ok q) :
    Alike (m.observations (Machine.course budget p bodies))
      (m'.observations (Machine.course budget q bodies)) := by
  obtain ⟨W₁, hle, hready, hsim⟩ :=
    sim_runProgram budget hrel hheld hroot hrequire hfits hdeclared hinstrument
  refine alike_cons hstops (hsim.map Outcome.value) fun hle₁ hrel₁ hstays => ?_
  have hresting : Resting P _ _ _ := ⟨hrel₁, hready.mono hle₁,
    hle₁.held.trans (hle.held.trans hheld), hroot.stays hstays⟩
  exact alike_requests hstops budget bodies hresting.takeLines

/-! ## Accepted programs -/

theorem not_generated_of_plain {n : String} (h : NormalForm.isReserved n = false) :
    ¬ Generated n := by
  intro hgenerated
  have hhead := hgenerated.head?_eq
  rw [NormalForm.isReserved, String.startsWith_string_eq_false_iff] at h
  obtain ⟨rest, hrest⟩ := List.head?_eq_some_iff.mp hhead
  exact h ⟨rest, hrest.symm⟩

theorem not_mem_toString {c : Char} (hc : c.isDigit = false) (i : Nat) :
    c ∉ (toString i).toList := by
  intro hmem
  rw [isDigit_of_mem_toString hmem] at hc
  cases hc

theorem covers_not_generated : Covers fun n => ¬ Generated n where
  plain _ := not_generated_of_plain
  result i := by
    rintro (h | ⟨j, h⟩ | ⟨j, h⟩) <;> replace h := congrArg String.toList h
    · simp [closureParam] at h
    · have hdigits : (toString i).toList = 'e' :: 's' :: 't' :: (toString j).toList := by
        simpa using h
      exact not_mem_toString (c := 'e') rfl i (hdigits ▸ List.mem_cons_self)
    · simp at h
  function i := by
    rintro (h | ⟨j, h⟩ | ⟨j, h⟩) <;> replace h := congrArg String.toList h
    · simp [closureParam] at h
    · simp at h
    · simp at h
/-- The names that every program has from the host. -/
def hostNames : List String :=
  ["require", "console", "undefined"]

/-- A statement leaves the names of the host to the host. -/
structure KeepsHost (s : Stmt) : Prop where
  declares : ∀ n ∈ declared s, n ∉ hostNames
  assigns : ∀ pos epos npos op n value,
    s = .expr pos (.assign epos op (.name npos n) value) → n ∉ hostNames
  updates : ∀ pos epos npos op isPrefix n,
    s = .expr pos (.update epos op isPrefix (.name npos n)) → n ∉ hostNames

/-- What the host and the recorder ask of a statement. -/
structure Suits (P : Expectation) (s : Stmt) : Prop where
  host : KeepsHost s
  arity : s.params.length ≤ 65535
  label : P.strict → ∀ pos label body, s = .labeled pos label body →
    label ≠ standard.options.returnLabel

section

variable {source p q : Program} (hnormal : normalize source = .ok p)
  (haccepted : instrument .default .default p = .ok q)

include hnormal haccepted

/-- A normal program that is accepted has none of the names of the instrumentation. -/
theorem not_hidden_of_accepted : Stmt.EverywhereIn (NamesFit fun n => ¬ Hidden n) p := by
  have hmay : ∀ n, standard.options.isReserved n = true →
      standard.primitives.mayCapture n = true := by
    intro n hn
    rcases Bool.or_eq_true_iff.mp hn with hn | hn <;> rw [eq_of_beq hn] <;> rfl
  have hleaves : Stmt.EverywhereIn (NamesFit (Leaves standard)) p :=
    leaves_of_instrument (l := standard) rfl rfl hmay haccepted
  refine Stmt.EverywhereIn.imp₂ (fun s hplain hleft n hn hhidden => ?_) p
    (namesFit_of_normalize covers_not_generated hnormal) hleaves
  rcases hhidden with hreserved | hgenerated
  · rw [hleft n hn] at hreserved
    cases hreserved
  · exact hplain n hn hgenerated

theorem fits_of_accepted (hsuits : Stmt.EverywhereIn (Suits P) p) : P.Fits p := by
  refine Stmt.EverywhereIn.imp₂ (fun s hnames hsuits => ?_) p
    (not_hidden_of_accepted hnormal haccepted) hsuits
  exact
    { names := hnames
      label := hsuits.label
      arity := hsuits.arity
      updates := fun pos epos npos op isPrefix heq =>
        hsuits.host.updates pos epos npos op isPrefix "undefined" heq (by decide) }

end

theorem require_not_declared {p : Program} (h : Stmt.EverywhereIn (Suits P) p) :
    "require" ∉ declaredIn p := by
  intro hmem
  obtain ⟨s, hs, hn⟩ := List.mem_flatMap.mp hmem
  exact (h.mem hs).here.host.declares "require" hn (by decide)

/-! ## Behaviour -/

/-- The recorder may fail in the instrumented program. -/
def lenient (t : TraceError) : Expectation :=
  ⟨False, .trace t, False.elim⟩

theorem trace_of_stops {refusal : TraceError} {e : EvalError} (h : (lenient refusal).Stops e) :
    ∃ t, e = .trace t := by
  cases h with
  | trace t => exact ⟨t, rfl⟩
  | refusal => exact ⟨_, rfl⟩

/-- Instrumentation keeps what a program does.  The program and the instrumented program, each run
with the same settings and the same network and followed by the same requests, have the same
results, lines and answers, as long as the recorder does not fail. -/
theorem alike_of_instrument {source p q : Program} (hnormal : normalize source = .ok p)
    (haccepted : instrument .default .default p = .ok q) (hhost : Stmt.EverywhereIn KeepsHost p)
    (harity : Stmt.EverywhereIn (fun s => s.params.length ≤ 65535) p) {config : Config}
    (hconfig : config.instrument = .default) (network : Network) (budget : Nat) (bodies : List Json)
    (hinserted : (Machine.new config (.new (some .new) network)).RecordsByInsertion
      (Machine.course budget q bodies)) :
    Alike
      ((Machine.new config (.new none network)).observations (Machine.course budget p bodies))
      ((Machine.new config (.new (some .new) network)).observations
        (Machine.course budget q bodies)) := by
  obtain ⟨t, hinserted⟩ := hinserted
  have hsuits : Stmt.EverywhereIn (Suits (lenient t)) p :=
    Stmt.EverywhereIn.imp₂ (fun _ hhere hcount => ⟨hhere, hcount, False.elim⟩) p hhost harity
  rw [← hinserted]
  exact alike_course (fun _ => trace_of_stops) budget bodies
    (machineRel_new (lenient t) hconfig network) rfl ⟨.new, rfl, rfl⟩ rfl
    (fits_of_accepted hnormal haccepted hsuits) (require_not_declared hsuits) haccepted

/-! ## Discipline -/

/-- In a step the recorder has not been misused. -/
def Observation.IsDisciplined (seen : Observation) : Prop :=
  ∀ t, seen.result = .error (.trace t) → ¬ t.IsMisuse

theorem disciplined_cons (hstrict : P.strict) {x : Running Outcome} {y : Running Outcome}
    {Q : World → Outcome → Outcome → Machine → Prop} {steps : List (Running Outcome)}
    (h : Sim P W m m' x y Q)
    (hrest : ∀ {W' n n'}, W ≤ W' → MachineRel P W' n n' → m'.Stays W.held n' →
      ∀ seen ∈ n'.takeLines.2.observations steps, seen.IsDisciplined) :
    ∀ seen ∈ m'.observations (y :: steps), seen.IsDisciplined := by
  unfold Machine.observations
  cases h with
  | ok hx hy hle hrel hstays h =>
      rw [hy]
      exact List.forall_mem_cons.mpr ⟨nofun, hrest hle hrel hstays⟩
  | fail hx hy hle hrel hstays hallows =>
      rw [hy]
      exact List.forall_mem_cons.mpr
        ⟨fun t ht => hallows hstrict t (Except.error.inj ht), hrest hle hrel hstays⟩
  | stop hy hle hrel hstays hallows hstop =>
      rw [hy]
      exact List.forall_mem_cons.mpr
        ⟨fun t ht => hallows hstrict t (Except.error.inj ht), hrest hle hrel hstays⟩

theorem disciplined_requests (hstrict : P.strict) (budget : Nat) (bodies : List Json)
    (h : Resting P W m m') : ∀ seen ∈ m'.observations
      (bodies.map fun body => Outcome.answer <$> Machine.request budget body),
        seen.IsDisciplined := by
  induction bodies generalizing W m m' with
  | nil => exact fun _ hseen => absurd hseen List.not_mem_nil
  | cons body bodies ih =>
      refine disciplined_cons hstrict ((sim_request budget body h).map Outcome.answer)
        fun hle hrel hstays => ?_
      exact ih (h.next hle hrel hstays).takeLines

/-- What is inserted never misuses the recorder, whatever the program does and however it ends, if
no label of the program is the one for returning.  Other calls of the recorder are refused. -/
theorem disciplined_of_instrument {source p q : Program} (hnormal : normalize source = .ok p)
    (haccepted : instrument .default .default p = .ok q) (refusal : EvalError)
    (hrefusal : ∀ t, refusal = .trace t → ¬ t.IsMisuse)
    (hsuits : Stmt.EverywhereIn (Suits ⟨True, refusal, fun _ => hrefusal⟩) p) {config : Config}
    (hconfig : config.instrument = .default) (network : Network) (budget : Nat)
    (bodies : List Json) :
    ∀ seen ∈ Machine.observations
      { Machine.new config (.new (some .new) network) with gate := recorderGate refusal }
      (Machine.course budget q bodies), seen.IsDisciplined := by
  have hrel := machineRel_new ⟨True, refusal, fun _ => hrefusal⟩ hconfig network
  obtain ⟨W₁, hle, hready, hsim⟩ := sim_runProgram budget hrel rfl ⟨.new, rfl, rfl⟩ rfl
    (fits_of_accepted hnormal haccepted hsuits) (require_not_declared hsuits) haccepted
  refine disciplined_cons trivial (hsim.map Outcome.value) fun hle₁ hrel₁ hstays => ?_
  have hroot : Machine.AtRoot { Machine.new config (.new (some .new) network) with
    gate := recorderGate refusal } := ⟨.new, rfl, rfl⟩
  have hresting : Resting _ _ _ _ :=
    ⟨hrel₁, hready.mono hle₁, hle₁.held.trans hle.held, hroot.stays hstays⟩
  exact disciplined_requests trivial budget bodies hresting.takeLines

/-! ## A greeting -/

/-- `console.log("hi");` -/
def greeting : Program :=
  [.ofExpr (.invoke (.ident "console") "log" [.text "hi"])]

/-- `let $t0 = console.log("hi");` -/
def normalGreeting : Program :=
  [.letNamed "$t0" (.invoke (.ident "console") "log" [.text "hi"])]

def tracedGreeting : Program :=
  modules ++ [traceCall standard "newTrace" [],
    traceCall standard "tracePrimApp"
      [.text "console.log", .list [standard.builder "string" [.text "hi"]]],
    .letNamed "$t0" (.invoke (.ident "console") "log" [.text "hi"]), exitBlock standard]

/-- A program without a value that came to its end. -/
def Observation.isCompleted : Observation → Bool
  | ⟨.ok (.value .undefined), _⟩ => true
  | _ => false

theorem eq_of_isCompleted {seen : List Observation} (lines : List (List String))
    (hseen : seen.all Observation.isCompleted = true) (hlines : seen.map (·.lines) = lines) :
    seen = lines.map (⟨.ok (.value .undefined), ·⟩) := by
  subst hlines
  rw [List.map_map]
  refine (List.map_id _).symm.trans (List.map_congr_left fun o ho => ?_)
  have hcompleted := List.all_eq_true.mp hseen o ho
  unfold Observation.isCompleted at hcompleted
  split at hcompleted
  · rfl
  · cases hcompleted

theorem alike_of_instrument_greeting :
    let machine := Machine.new .default (.new none (.ofRoutes []))
    let machine' := Machine.new .default (.new (some .new) (.ofRoutes []))
    normalize greeting = .ok normalGreeting ∧
      instrument .default .default normalGreeting = .ok tracedGreeting ∧
      Stmt.EverywhereIn KeepsHost normalGreeting ∧
      Stmt.EverywhereIn (fun s => s.params.length ≤ 65535) normalGreeting ∧
      machine'.RecordsByInsertion (Machine.course 1 tracedGreeting []) ∧
      Alike (machine.observations (Machine.course 1 normalGreeting []))
        (machine'.observations (Machine.course 1 tracedGreeting [])) := by
  intro machine machine'
  have hnormal : normalize greeting = .ok normalGreeting := by with_unfolding_all rfl
  have haccepted : instrument .default .default normalGreeting = .ok tracedGreeting := by
    with_unfolding_all rfl
  have hhost : Stmt.EverywhereIn KeepsHost normalGreeting :=
    ⟨⟨by decide, nofun, nofun⟩, trivial⟩
  have harity : Stmt.EverywhereIn (fun s => s.params.length ≤ 65535) normalGreeting :=
    ⟨Nat.zero_le _, trivial⟩
  have hgated : Machine.observations { machine' with gate := recorderGate (.trace .noOpenBlock) }
      (Machine.course 1 tracedGreeting []) = [⟨.ok (.value .undefined), ["hi"]⟩] :=
    eq_of_isCompleted [["hi"]] (by decide +kernel) (by decide +kernel)
  have hplain : machine'.observations (Machine.course 1 tracedGreeting []) =
      [⟨.ok (.value .undefined), ["hi"]⟩] :=
    eq_of_isCompleted [["hi"]] (by decide +kernel) (by decide +kernel)
  have hinserted : machine'.RecordsByInsertion (Machine.course 1 tracedGreeting []) :=
    ⟨.noOpenBlock, hgated.trans hplain.symm⟩
  exact ⟨hnormal, haccepted, hhost, harity, hinserted,
    alike_of_instrument hnormal haccepted hhost harity rfl (.ofRoutes []) 1 [] hinserted⟩

end TraceLoom
