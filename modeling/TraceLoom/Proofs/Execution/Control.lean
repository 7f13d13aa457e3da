import TraceLoom.Proofs.Execution.Statements

/-!
Statements with statements in them: blocks, branches, loops and labels.  Inserted statements stand
at the beginning and at the end of their blocks.
-/

namespace TraceLoom

open Script Instrument Running

variable {P : Expectation} {W W' : World} {m m' n n' : Machine} {env env' : Environment}
  {call call' : Expr → Value → List Value → Running Value} {ν ν' : Names} {place : Place}
  {bound : List String} {F F' : List Frame}

/-- Statements do the same as what is woven of them. -/
def RunsAlike (P : Expectation) (ss : List Stmt) : Prop :=
  ∀ {W : World} {m m' : Machine} {env env' : Environment}
    {call call' : Expr → Value → List Value → Running Value} {place : Place} {ν ν' : Names}
    {bound : List String} {out : List Stmt}, Poised P W m m' env env' call call' place →
    ν.Sees bound → (∀ n ∈ declaredIn ss, n ∈ bound) → Weaves (stmts standard place ss) ν out ν' →
    P.Fits ss → Seen W env' ν (Stmt.freeNamesList Option.toList ss) →
    Sim P W m m' (Stmt.execList call env ss) (Stmt.execList call' env' out)
      (Flows P place m'.frames)

/-! ## Blocks -/

/-- What a block binds is seen in it, besides what is seen around it. -/
theorem Seen.bind {inner : Environment} {used declared : List String}
    (h : Seen W env' ν (used.filter (· ∉ declared)))
    (hclosure : HasClosure W env' → HasClosure W' inner) (hbinds : ν.Binds declared ν') :
    Seen W' inner ν' used := by
  refine h.imp hclosure fun hown x hx hmay => ?_
  rw [hbinds.lookup]
  split
  · rfl
  · rename_i hdeclared
    exact hown x (List.mem_filter.mpr ⟨hx, by simpa using hdeclared⟩) hmay

theorem Expectation.Fits.declaredIn {ss : List Stmt} (h : P.Fits ss) :
    ∀ n ∈ declaredIn ss, ¬ Hidden n := by
  intro n hn
  obtain ⟨s, hs, hn⟩ := List.mem_flatMap.mp hn
  exact (h.mem hs).here.names n (by simp [hn])

/-- In a block that was woven, inserted statements may run around those of the block. -/
theorem sim_wovenBlock (h : Poised P W m m' env env' call call' place) (hν : ν.Sees bound)
    {inside : Place} {body out body' : List Stmt} {Q : World → Flow → Flow → Machine → Prop}
    (hruns : RunsAlike P body) (hwoven : WovenBlock standard inside body ν out ν')
    (hfits : P.Fits body)
    (hseen : Seen W env' ν
      ((Stmt.freeNamesList Option.toList body).filter (· ∉ declaredIn body)))
    (hbody' : ∀ env, hoist env body' = hoist env out)
    (hexec : ∀ {W₁ n n' inner inner'}, W ≤ W₁ → Poised P W₁ n n' inner inner' call call' place →
      Inside (declaredIn body) m' env' n' inner' →
      (∀ {k'}, Poised P W₁ n k' inner inner' call call' inside →
        Sim P W₁ n k' (Stmt.execList call inner body) (Stmt.execList call' inner' out)
          (Flows P inside k'.frames)) →
      Sim P W₁ n n' (Stmt.execList call inner body) (Stmt.execList call' inner' body') Q) :
    Sim P W m m' (Running.inScope env body fun inner => Stmt.execList call inner body)
      (Running.inScope env' body' fun inner => Stmt.execList call' inner body') Q := by
  obtain ⟨hbinds, -, hweaves⟩ := hwoven
  refine sim_inScope hweaves hfits hbody' h.rel h.env
    fun {W₁ n n' inner inner'} hle hrel henv hclosure hinside => ?_
  have hpoised : Poised P W₁ n n' inner inner' call call' place := by
    refine ⟨hrel, h.ready.mono hle, henv, h.calls, ?_⟩
    rw [Machine.frames_of_adapter hinside.adapter]
    exact h.lists
  refine hexec hle hpoised hinside fun hpoised' => ?_
  exact hruns hpoised' (hν.binds hbinds) (by simp +contextual) hweaves hfits
    (hseen.bind hclosure hbinds)

theorem sim_block (h : Poised P W m m' env env' call call' place) (hν : ν.Sees bound)
    {body out : List Stmt} (hruns : RunsAlike P body)
    (hwoven : WovenBlock standard place body ν out ν') (hfits : P.Fits body)
    (hseen : Seen W env' ν
      ((Stmt.freeNamesList Option.toList body).filter (· ∉ declaredIn body))) :
    Sim P W m m' (Running.inScope env body fun inner => Stmt.execList call inner body)
      (Running.inScope env' out fun inner => Stmt.execList call' inner out)
      (Flows P place m'.frames) := by
  refine sim_wovenBlock h hν hruns hwoven hfits hseen (fun _ => rfl)
    fun _ hpoised hinside hrest => ?_
  rw [← Machine.frames_of_adapter hinside.adapter]
  exact hrest hpoised

/-- An inserted statement opens a list for the statements of a block. -/
theorem sim_openedBlock (h : Poised P W m m' env env' call call' place) (hν : ν.Sees bound)
    {body out : List Stmt} {opening : Stmt} (hopening : opening.isFunction = false)
    {scope : Scope} (hscope : ∀ label, scope ≠ .label label) (hlists : OpenAt P place F)
    (hruns : RunsAlike P body) (hwoven : WovenBlock standard place body ν out ν')
    (hfits : P.Fits body)
    (hseen : Seen W env' ν
      ((Stmt.freeNamesList Option.toList body).filter (· ∉ declaredIn body)))
    (hopens : ∀ {W₁ n n' inner inner'}, Poised P W₁ n n' inner inner' call call' place →
      Inside (declaredIn body) m' env' n' inner' →
      Sim P W₁ n n' (pure ()) (opening.exec call' inner') (Passed P W₁ n' (Opens scope F))) :
    Sim P W m m' (Running.inScope env body fun inner => Stmt.execList call inner body)
      (Running.inScope env' (opening :: out) fun inner =>
        Stmt.execList call' inner (opening :: out))
      (EndsIn P place scope F) := by
  refine sim_wovenBlock h hν hruns hwoven hfits hseen
    (fun _ => hoist_cons_of_not_function hopening out) fun _ hpoised hinside hrest => ?_
  refine sim_inserted_cons (hopens hpoised hinside) fun hrel _ hframes => ?_
  refine (hrest ⟨hrel, hpoised.ready, hpoised.env, hpoised.calls, hlists.opens hframes⟩).imp
    fun _ hflows => ?_
  exact hflows.endsIn hscope hframes

/-! ## Branches -/

theorem hidden_of_isTest {name : String} (h : IsTest name) : Hidden name :=
  .inr (.inr (.inl h))

theorem ne_closureParam_of_isTest {name : String} (h : IsTest name) : name ≠ closureParam := by
  obtain ⟨i, rfl⟩ := h
  intro heq
  have hchars := congrArg String.toList heq
  rw [String.toList_append] at hchars
  cases hchars

/-- A variable of the instrumentation has the trace of a test. -/
def Tested (env' : Environment) (name : String) (m' : Machine) : Prop :=
  ∃ v, m'.store.lookup? env' name = some v ∧ IsPlain v

/-- The value of a test is recorded in a variable of the instrumentation. -/
theorem sim_letTest (h : Poised P W m m' env env' call call' place) {name : String}
    (hname : IsTest name) {traced : Expr} (htraced : Builds call' env' m' traced) :
    Sim P W m m' (pure ()) ((Stmt.letNamed name traced).exec call' env') fun W' _ flow n' =>
      W' = W ∧ flow = .next ∧ n'.adapter = m'.adapter ∧ Tested env' name n' := by
  obtain ⟨v, n', hrun, hquiet, hv⟩ := htraced
  have hrel := h.rel.quiet_right hquiet
  have hlt : env'.own < n'.store.scopes.size :=
    hrel.store.scopes.lt_right (List.forall₂_cons.mp h.env.scopes).1
  have hfurnishing : Furnishing W n'.store env'.own name v :=
    .of_generated (.inr (.inl hname)) fun heq => absurd heq (ne_closureParam_of_isTest hname)
  have hstore := hrel.store.write_right (hidden_of_isTest hname) (y := ⟨v, false⟩) hfurnishing
  have hdeclared : m'.run ((Stmt.letNamed name traced).exec call' env') =
      (.ok .next, { n' with store := n'.store.declare env' name v false }) := by
    change m'.run ((do
      bindPattern env' .ofLet (.name name) (← traced.eval call' env')
      pure ()) >>= fun _ => pure Flow.next) = _
    rw [Machine.run_bind, Machine.run_bind, hrun]
    rfl
  refine .ok rfl hdeclared (World.le_refl W) (hrel.withStores (World.le_refl W) hstore)
    (hquiet.stays.trans (Machine.stays_of_adapter rfl rfl))
    ⟨rfl, rfl, hquiet.adapter, v, ?_, hv⟩
  rw [Store.lookup?, Store.find?, Store.declare, get?_bindings_write, if_pos ⟨rfl, hlt, rfl⟩]
  rfl

theorem Tested.quiet {name : String} (h : Tested env' name m') (hquiet : m'.Quiet n') :
    Tested env' name n' := by
  obtain ⟨v, hlookup, hv⟩ := h
  refine ⟨v, hlookup ▸ ?_, hv⟩
  rw [Store.lookup?, Store.lookup?,
    find?_congr fun scope _ => congrArg (Fields.get? name) (hquiet.grows.bindings scope)]

theorem Tested.builds {name : String} (h : Tested env' name m') :
    Builds call' env' m' (.ident name) := by
  obtain ⟨v, hlookup, hv⟩ := h
  exact ⟨v, m', run_readName hlookup, .refl m', hv⟩

theorem sim_taken (h : Poised P W m m' env env' call call' place) (hν : ν.Sees bound)
    (taken : Bool) {name : String} (hname : IsTest name) (htested : Tested env' name m')
    {body out : List Stmt} (hruns : RunsAlike P body)
    (hwoven : WovenBlock standard place body ν out ν') (hfits : P.Fits body)
    (hseen : Seen W env' ν
      ((Stmt.freeNamesList Option.toList body).filter (· ∉ declaredIn body))) :
    let opening := traceCall standard (if taken then "traceIfTrue" else "traceIfFalse")
      [.ident name]
    Sim P W m m' (Running.inScope env body fun inner => Stmt.execList call inner body)
      (Running.inScope env' (opening :: out) fun inner =>
        Stmt.execList call' inner (opening :: out))
      (EndsIn P place .block m'.frames) := by
  refine sim_openedBlock h hν rfl (fun _ heq => by cases heq) h.lists hruns hwoven hfits hseen
    fun {W₁ n n' inner inner'} hpoised hinside => ?_
  have htested' : Tested inner' name n' := by
    obtain ⟨v, hlookup, hv⟩ := htested
    refine ⟨v, (hinside.lookup name fun hmem => ?_).trans hlookup, hv⟩
    exact hfits.declaredIn name hmem (hidden_of_isTest hname)
  rw [← Machine.frames_of_adapter hinside.adapter]
  exact sim_traceIf hpoised.equipped hpoised.lists.ne_nil taken htested'.builds

/-- Where the program has nothing to do, the instrumented program records that. -/
theorem sim_notTaken (h : Poised P W m m' env env' call call' place) {name : String}
    (htested : Tested env' name m') :
    let record := [traceCall standard "traceIfFalse" [.ident name]]
    Sim P W m m' (pure .next)
      (Running.inScope env' record fun inner => Stmt.execList call' inner record)
      (EndsIn P place .block m'.frames) := by
  have hquiet : m'.Quiet { m' with store := (m'.store.child env').2 } :=
    Machine.quiet_of_grows (.child env' _)
  refine .quietly (m'.run_make (Store.child env')) hquiet ?_
  have hequipped : Equipped P W m (m'.store.child env').1 call'
      { m' with store := (m'.store.child env').2 } :=
    ⟨h.rel.quiet_right hquiet, h.ready, List.mem_cons_of_mem _ h.env.home, h.calls.applies⟩
  have htested' : Tested (m'.store.child env').1 name
      { m' with store := (m'.store.child env').2 } := by
    obtain ⟨v, hlookup, hv⟩ := htested
    refine ⟨v, (lookup?_inner rfl ?_ fun scope => ?_).trans hlookup, hv⟩
    · have hnil : m'.store.bindings (m'.store.child env').1.own = [] :=
        StoreRel.bindings_of_le (Nat.le_refl _)
      rw [hquiet.grows.bindings, hnil]
      rfl
    · rw [hquiet.grows.bindings]
  refine sim_inserted_cons (sim_traceIf hequipped h.lists.ne_nil false htested'.builds)
    fun hrel _ hframes => ?_
  exact .pure hrel (.inl ⟨rfl, rfl, hframes⟩)

/-- A test is recorded before it decides what runs, and the list of the branch is left after. -/
theorem sim_tested (h : Poised P W m m' env env' call call' place) {test traced : Expr}
    (htest : (standard.expr test).run ν = .ok (traced, ν')) {name : String} (hname : IsTest name)
    (hnames : ∀ n ∈ test.freeNames Option.toList, ¬ Hidden n)
    (hseen : Seen W env' ν (test.freeNames Option.toList)) {x y : Bool → Running Flow}
    (hbranch : ∀ {W₁ n n'} taken, W ≤ W₁ → Poised P W₁ n n' env env' call call' place →
      Tested env' name n' →
      Sim P W₁ n n' (x taken) (y taken) (EndsIn P place .block n'.frames)) :
    Sim P W m m' (do x (← test.eval call env).isTruthy) (do
      match ← (Stmt.letNamed name traced).exec call' env' with
      | .next =>
        match ← (do y (← test.eval call' env').isTruthy) with
        | .next => Stmt.execList call' env' [exitBlock standard]
        | flow => return flow
      | flow => return flow) (Flows P place m'.frames) := by
  refine (sim_letTest h hname (builds_expr test htest h.equipped hseen)).before ?_
  rintro _ k' _ - hrel₁ - ⟨rfl, rfl, hadapter, htested⟩
  have hframes := Machine.frames_of_adapter hadapter
  have hpoised : Poised P _ m k' env env' call call' place :=
    ⟨hrel₁, h.ready, h.env, h.calls, hframes ▸ h.lists⟩
  rw [← hframes]
  refine sim_exit hpoised ?_
  refine (sim_expr test htest hrel₁ h.env hnames).bind fun {W₂ n₂ n₂' v v'} hle hrel₂ _ hvalued => ?_
  obtain ⟨hv, hquiet⟩ := hvalued
  have hframes₂ := Machine.frames_of_adapter hquiet.adapter
  rw [hv.isTruthy_eq, ← hframes₂]
  refine (hbranch v.isTruthy hle ?_ (htested.quiet hquiet)).imp fun _ hends => ⟨.block, hends⟩
  exact ⟨hrel₂, h.ready.mono hle, h.env.mono hle, h.calls, hframes₂ ▸ hpoised.lists⟩

theorem sim_ifThen (h : Poised P W m m' env env' call call' place) (hν : ν.Sees bound)
    {pos : Position} {test traced : Expr} {consequent yes : List Stmt} {name : String}
    {ν₁ : Names} (htest : (standard.expr test).run ν = .ok (traced, ν₁)) (hname : IsTest name)
    (hruns : RunsAlike P consequent)
    (hwoven : WovenBlock standard place consequent ν₁ yes ν') (hfits : P.Fits consequent)
    (hnames : ∀ n ∈ test.freeNames Option.toList, ¬ Hidden n)
    (hseen : Seen W env' ν ((Stmt.ifElse pos test consequent none).freeNames Option.toList)) :
    Sim P W m m' ((Stmt.ifElse pos test consequent none).exec call env)
      (Stmt.execList call' env' [.letNamed name traced,
        .ifElse pos test (traceCall standard "traceIfTrue" [.ident name] :: yes)
          (some [traceCall standard "traceIfFalse" [.ident name]]),
        exitBlock standard]) (Flows P place m'.frames) := by
  have huses := Lower.uses_expr Option.toList test htest
  let x (taken : Bool) : Running Flow :=
    if taken then Running.inScope env consequent fun inner => Stmt.execList call inner consequent
    else pure .next
  let y (taken : Bool) : Running Flow :=
    if taken then
      Running.inScope env' (traceCall standard "traceIfTrue" [.ident name] :: yes) fun inner =>
        Stmt.execList call' inner (traceCall standard "traceIfTrue" [.ident name] :: yes)
    else
      Running.inScope env' [traceCall standard "traceIfFalse" [.ident name]] fun inner =>
        Stmt.execList call' inner [traceCall standard "traceIfFalse" [.ident name]]
  refine sim_tested (x := x) (y := y) h htest hname hnames hseen.left
    fun taken hle hpoised htested => ?_
  cases taken with
  | true =>
      exact sim_taken hpoised (hν.uses huses) true hname htested hruns hwoven hfits
        ((hseen.right.uses huses).mono hle)
  | false => exact sim_notTaken hpoised htested

theorem sim_ifElse (h : Poised P W m m' env env' call call' place) (hν : ν.Sees bound)
    {pos : Position} {test traced : Expr} {consequent alternate yes no : List Stmt} {name : String}
    {ν₁ ν₂ ν₃ : Names} (htest : (standard.expr test).run ν = .ok (traced, ν₁))
    (hname : IsTest name) (hyes : RunsAlike P consequent) (hno : RunsAlike P alternate)
    (hwoven : WovenBlock standard place consequent ν₁ yes ν₂)
    (hwoven' : WovenBlock standard place alternate ν₁ no ν₃)
    (hfits : P.Fits consequent) (hfits' : P.Fits alternate)
    (hnames : ∀ n ∈ test.freeNames Option.toList, ¬ Hidden n)
    (hseen : Seen W env' ν
      ((Stmt.ifElse pos test consequent (some alternate)).freeNames Option.toList)) :
    Sim P W m m' ((Stmt.ifElse pos test consequent (some alternate)).exec call env)
      (Stmt.execList call' env' [.letNamed name traced,
        .ifElse pos test (traceCall standard "traceIfTrue" [.ident name] :: yes)
          (some (traceCall standard "traceIfFalse" [.ident name] :: no)),
        exitBlock standard]) (Flows P place m'.frames) := by
  have huses := Lower.uses_expr Option.toList test htest
  let x (taken : Bool) : Running Flow :=
    if taken then Running.inScope env consequent fun inner => Stmt.execList call inner consequent
    else Running.inScope env alternate fun inner => Stmt.execList call inner alternate
  let y (taken : Bool) : Running Flow :=
    if taken then
      Running.inScope env' (traceCall standard "traceIfTrue" [.ident name] :: yes) fun inner =>
        Stmt.execList call' inner (traceCall standard "traceIfTrue" [.ident name] :: yes)
    else
      Running.inScope env' (traceCall standard "traceIfFalse" [.ident name] :: no) fun inner =>
        Stmt.execList call' inner (traceCall standard "traceIfFalse" [.ident name] :: no)
  refine sim_tested (x := x) (y := y) h htest hname hnames hseen.left
    fun taken hle hpoised htested => ?_
  have hseen' := (hseen.right.uses huses).mono hle
  cases taken with
  | true =>
      exact sim_taken hpoised (hν.uses huses) true hname htested hyes hwoven hfits hseen'.left
  | false =>
      exact sim_taken hpoised (hν.uses huses) false hname htested hno hwoven' hfits' hseen'.right

/-! ## Loops -/

/-- Where tests agree and the body ends in the list of the loop, so does the loop. -/
theorem sim_loop {x x' : Running Bool} {y y' : Running Flow} {limit : Nat}
    (htest : ∀ {W₁ n n'}, W ≤ W₁ → MachineRel P W₁ n n' →
      Sim P W₁ n n' x x' fun _ b b' k' => b' = b ∧ k'.frames = n'.frames)
    (hbody : ∀ {W₁ n n' iterating}, W ≤ W₁ → MachineRel P W₁ n n' →
      (P.strict → Opens (.loop iterating) F n'.frames) →
      Sim P W₁ n n' y y' (EndsIn P place (.loop true) F)) :
    ∀ (remaining : Nat) {W₁ : World} {n n' : Machine} {iterating : Bool}, W ≤ W₁ →
      MachineRel P W₁ n n' → (P.strict → Opens (.loop iterating) F n'.frames) →
      Sim P W₁ n n' (loop limit x y remaining) (loop limit x' y' remaining)
        fun W' flow flow' k' => ∃ scope, EndsIn P place scope F W' flow flow' k' := by
  intro remaining
  induction remaining with
  | zero =>
      intro W₁ n n' iterating hle hrel hopens
      refine (htest hle hrel).bind ?_
      rintro W₂ k k' _ b - hrel₂ - ⟨rfl, hframes⟩
      cases b with
      | true =>
          have hlimit : Sim P W₂ k k' (throw (.loopLimit limit) : Running Flow)
              (throw (.loopLimit limit) : Running Flow) fun W' flow flow' k' =>
                ∃ scope, EndsIn P place scope F W' flow flow' k' := .throw hrel₂ nofun
          exact hlimit.of_run_eq rfl rfl
      | false =>
          exact .pure hrel₂ ⟨.loop iterating, .inl ⟨rfl, rfl, fun hstrict => hframes ▸ hopens hstrict⟩⟩
  | succ remaining ih =>
      intro W₁ n n' iterating hle hrel hopens
      refine (htest hle hrel).bind ?_
      rintro W₂ k k' _ b hle₂ hrel₂ - ⟨rfl, hframes⟩
      cases b with
      | true =>
          have hle' := World.le_trans hle hle₂
          refine (hbody hle' hrel₂ fun hstrict => hframes ▸ hopens hstrict).bind ?_
          rintro W₃ l l' flow flow' hle₃ hrel₃ - (⟨rfl, rfl, hopens₃⟩ | ⟨hne, hne', hflows⟩)
          · exact ih (World.le_trans hle' hle₃) hrel₃ hopens₃
          · cases hflows with
            | next => exact absurd rfl hne
            | breakTo hlabel hF =>
                exact .pure hrel₃ ⟨.loop true, .inr ⟨nofun, nofun, .breakTo hlabel hF⟩⟩
            | returnWith hplace hv hF =>
                exact .pure hrel₃ ⟨.loop true, .inr ⟨nofun, nofun, .returnWith hplace hv hF⟩⟩
      | false =>
          exact .pure hrel₂ ⟨.loop iterating, .inl ⟨rfl, rfl, fun hstrict => hframes ▸ hopens hstrict⟩⟩

theorem sim_whileDo (h : Poised P W m m' env env' call call' place) (hν : ν.Sees bound)
    {pos : Position} {test traced : Expr} {body body' : List Stmt} {ν₁ : Names}
    (htest : (standard.expr test).run ν = .ok (traced, ν₁)) (hruns : RunsAlike P body)
    (hwoven : WovenBlock standard place body ν₁ body' ν') (hfits : P.Fits body)
    (hnames : ∀ n ∈ test.freeNames Option.toList, ¬ Hidden n)
    (hseen : Seen W env' ν ((Stmt.whileDo pos test body).freeNames Option.toList)) :
    Sim P W m m' ((Stmt.whileDo pos test body).exec call env)
      (Stmt.execList call' env' [traceCall standard "traceWhile" [traced],
        .whileDo pos test (traceCall standard "traceLoop" [] :: body'), exitBlock standard])
      (Flows P place m'.frames) := by
  have huses := Lower.uses_expr Option.toList test htest
  have hopening := sim_traceWhile h.equipped h.lists.ne_nil
    (builds_expr test htest h.equipped hseen.left)
  refine sim_inserted_cons hopening fun {k'} hrel _ hopens => ?_
  refine sim_exit (h.opened hrel hopens) (.get_bind ?_)
  rw [hrel.config]
  refine sim_loop (fun {W₁ n n'} hle hrel₁ => ?_) (fun {W₁ n n' iterating} hle hrel₁ hopens₁ => ?_) _
    (World.le_refl W) hrel hopens
  · refine (sim_expr test htest hrel₁ (h.env.mono hle) hnames).bind
      fun _ hrel₂ _ hvalued => ?_
    exact .pure hrel₂ ⟨hvalued.1.isTruthy_eq, Machine.frames_of_adapter hvalued.2.adapter⟩
  · have hpoised : Poised P W₁ n n' env env' call call' place :=
      ⟨hrel₁, h.ready.mono hle, h.env.mono hle, h.calls, h.lists.opens hopens₁⟩
    refine sim_openedBlock hpoised (hν.uses huses) rfl (fun _ heq => by cases heq) h.lists hruns
      hwoven hfits ((hseen.right.uses huses).mono hle) fun hpoised' hinside => ?_
    rw [← Machine.frames_of_adapter hinside.adapter] at hopens₁
    exact sim_traceLoop hpoised'.equipped hopens₁

/-! ## Labels -/

/-- Statements under a label end: with a break to it, which has left their list, or as statements
around the label do. -/
inductive EndsUnder (P : Expectation) (place : Place) (label : String) (F : List Frame) (W : World) :
    Flow → Flow → Machine → Prop
  | here {n : Machine} (hF : P.strict → Advances F n.frames) :
      EndsUnder P place label F W (.breakTo (some label)) (.breakTo (some label)) n
  | beyond {flow flow' : Flow} {n : Machine} (hne : flow ≠ .breakTo (some label))
      (h : Flows P place F W flow flow' n) : EndsUnder P place label F W flow flow' n

/-- What leaves the list of a label leaves it for good. -/
theorem Flows.endsUnder {label : String} (hF : P.strict → Opens (.label label) F F')
    (hlabel : P.strict → label ≠ standard.options.returnLabel) {flow flow' : Flow}
    (hne : flow ≠ .next) (h : Flows P (place.withLabel label) F' W flow flow' n) :
    EndsUnder P place label F W flow flow' n := by
  cases h with
  | next => exact absurd rfl hne
  | breakTo hother hunwind =>
      rename_i other
      by_cases heq : other = label
      · subst heq
        refine .here fun hstrict => ?_
        obtain ⟨rest, hrest, hadvances⟩ := (hF hstrict).unwind_self
        rw [hrest] at hunwind
        exact Option.some.inj (hunwind hstrict) ▸ hadvances
      · refine .beyond (by simpa using heq) (.breakTo ?_ fun hstrict => ?_)
        · exact (List.mem_append.mp hother).resolve_right (by simpa using heq)
        · rw [← (hF hstrict).unwind_eq (by simpa using Ne.symm heq)]
          exact hunwind hstrict
  | returnWith hplace hv hunwind =>
      refine .beyond nofun (.returnWith hplace hv fun hstrict => ?_)
      rw [← (hF hstrict).unwind_eq (by simpa using hlabel hstrict)]
      exact hunwind hstrict

/-- The list of a label is closed behind its statements, unless they left it. -/
theorem sim_underLabel (h : Poised P W m m' env env' call call' place) (hν : ν.Sees bound)
    {label : String} {body out : List Stmt} (hruns : RunsAlike P body)
    (hwoven : WovenBlock standard (place.withLabel label) body ν out ν') (hfits : P.Fits body)
    (hlabel : P.strict → label ≠ standard.options.returnLabel) (hlists : OpenAt P place F)
    (hopens : P.strict → Opens (.label label) F m'.frames)
    (hseen : Seen W env' ν
      ((Stmt.freeNamesList Option.toList body).filter (· ∉ declaredIn body))) :
    Sim P W m m' (Running.inScope env body fun inner => Stmt.execList call inner body)
      (Running.inScope env' (out ++ [exitBlock standard]) fun inner =>
        Stmt.execList call' inner (out ++ [exitBlock standard]))
      (EndsUnder P place label F) := by
  refine sim_wovenBlock h hν hruns hwoven hfits hseen (fun env => hoist_append_exitBlock out)
    fun {W₁ n n' inner inner'} hle hpoised hin hrest => ?_
  rw [← Machine.frames_of_adapter hin.adapter] at hopens
  rw [execList_append]
  refine (hrest ⟨hpoised.rel, hpoised.ready, hpoised.env, hpoised.calls,
    hlists.withLabel hopens⟩).after fun {W₂ l l' flow flow'} hle₂ hrel₂ _ hflows => ?_
  have hends (hne : flow ≠ .next) : EndsUnder P place label F W₂ flow flow' l' :=
    hflows.endsUnder hopens hlabel hne
  cases hflows with
  | next hF =>
      have hequipped : Equipped P W₂ l inner' call' l' :=
        ⟨hrel₂, hpoised.ready.mono hle₂, hle₂.home ▸ hpoised.env.home, hpoised.calls.applies⟩
      refine sim_inserted_cons (sim_exitBlock hequipped fun hstrict =>
        Operation.leads_exit ((hopens hstrict).advances (hF hstrict))) fun hrel₃ _ hframes => ?_
      exact .pure hrel₃ (.beyond nofun (.next hframes))
  | breakTo => exact .pure hrel₂ (hends nofun)
  | returnWith => exact .pure hrel₂ (hends nofun)

theorem sim_labeled (h : Poised P W m m' env env' call call' place) (hν : ν.Sees bound)
    {pos : Position} {label : String} {body body' : List Stmt} (hruns : RunsAlike P body)
    (hwoven : WovenBlock standard (place.withLabel label) body ν body' ν')
    (hfits : P.Fits body) (hlabel : P.strict → label ≠ standard.options.returnLabel)
    (hseen : Seen W env' ν ((Stmt.labeled pos label body).freeNames Option.toList)) :
    Sim P W m m' ((Stmt.labeled pos label body).exec call env)
      (Stmt.execList call' env' [traceCall standard "traceLabel" [.text label],
        .labeled pos label (body' ++ [exitBlock standard])]) (Flows P place m'.frames) := by
  refine sim_inserted_cons (sim_traceLabel h.equipped h.lists.ne_nil label)
    fun {k'} hrel _ hopens => ?_
  rw [execList_singleton]
  refine (sim_underLabel (h.opened hrel hopens) hν hruns hwoven hfits hlabel h.lists hopens
    hseen).bind fun {W₁ n n' flow flow'} _ hrel₁ _ hends => ?_
  cases hends with
  | here hF =>
      dsimp only
      rw [if_pos rfl]
      exact .pure hrel₁ (.next hF)
  | beyond hne hflows =>
      cases hflows with
      | next hF => exact .pure hrel₁ (.next hF)
      | breakTo hother hF =>
          rename_i other
          have hother' : other ≠ label := fun heq => hne (heq ▸ rfl)
          dsimp only
          rw [if_neg hother']
          exact .pure hrel₁ (.breakTo hother hF)
      | returnWith hplace hv hF => exact .pure hrel₁ (.returnWith hplace hv hF)

/-! ## Breaks and returns -/

theorem sim_breakTo (h : Poised P W m m' env env' call call' place) {pos : Position}
    {label : String} (hlabel : label ∈ place.labels) :
    Sim P W m m' ((Stmt.breakTo pos (some label)).exec call env)
      (Stmt.execList call' env' [traceCall standard "traceBreak" [.text label, standard.undefined],
        .breakTo pos (some label)]) (Flows P place m'.frames) := by
  refine sim_inserted_cons (sim_traceBreak h.equipped (builds_undefined h.equipped) fun hstrict =>
    h.lists.labels hstrict label hlabel) fun hrel _ hframes => ?_
  rw [execList_singleton]
  exact .pure hrel (.breakTo hlabel hframes)

theorem sim_returnWith (h : Poised P W m m' env env' call call' place) {pos : Position}
    {value : Option Expr} {traced : Expr} (hplace : place.inFunction = true)
    (htraced : Builds call' env' m' traced)
    (hvalue : ∀ {n'}, MachineRel P W m n' → (P.strict →
      Recording.unwind standard.options.returnLabel m'.frames = some n'.frames) →
      Sim P W m n' ((Stmt.returnWith pos value).exec call env)
        ((Stmt.returnWith pos value).exec call' env') (Flows P place m'.frames)) :
    Sim P W m m' ((Stmt.returnWith pos value).exec call env)
      (Stmt.execList call' env' [traceCall standard "traceBreak"
        [.text standard.options.returnLabel, traced], .returnWith pos value])
      (Flows P place m'.frames) := by
  refine sim_inserted_cons (sim_traceBreak h.equipped htraced fun hstrict =>
    h.lists.body hstrict hplace) fun hrel _ hframes => ?_
  rw [execList_singleton]
  exact hvalue hrel hframes

/-! ## All statements -/

mutual

theorem sim_stmt (s : Stmt) {W : World} {m m' : Machine} {env env' : Environment}
    {call call' : Expr → Value → List Value → Running Value} {place : Place} {ν ν' : Names}
    {bound : List String} {out : List Stmt} (h : Poised P W m m' env env' call call' place)
    (hν : ν.Sees bound) (hwoven : Woven standard place ν s out ν')
    (hfits : s.Everywhere P.FitsHere) (hseen : Seen W env' ν (s.freeNames Option.toList)) :
    Sim P W m m' (s.exec call env) (Stmt.execList call' env' out) (Flows P place m'.frames) := by
  have hhere := hfits.here
  have hopen := h.lists.ne_nil
  obtain ⟨hnames, hfree⟩ := List.forall_mem_append.mp hhere.names
  obtain ⟨hdeclared, hparams⟩ := List.forall_mem_append.mp hnames
  cases hwoven with
  | letFunction woven =>
      rename_i pos fpos kind name self params body body' closure ν₁
      have hclosure : Builds call' env' m' closure :=
        builds_closure h.equipped woven (by simpa [Stmt.freeNames, Stmt.freeNamesDeclarators,
          Expr.freeNames, Function.comp_def] using hseen)
      refine sim_recorded_kept (sim_traceLet h.equipped hopen name hclosure) fun hrel hframes => ?_
      exact sim_declareValue h.env (hdeclared name (by simp [declared, Pattern.names]))
        (sim_functionValue hrel h.env (fun hstrict => (hframes hstrict).ne_nil) woven
          ⟨hfits.2, hparams, hhere.arity⟩)
  | letCall woven =>
      rename_i pos cpos kind name callee args ν₁
      exact sim_wovenCall h woven (hdeclared name (by simp [declared, Pattern.names]))
        (fun n hn => hfree n (by simpa [Stmt.freeNames, Stmt.freeNamesDeclarators] using hn))
        (by simpa [Stmt.freeNames, Stmt.freeNamesDeclarators] using hseen)
  | letValue hvalue =>
      rename_i pos kind name value traced ν₁
      have hseen' : Seen W env' ν (value.freeNames Option.toList) := by
        simpa [Stmt.freeNames, Stmt.freeNamesDeclarators] using hseen
      refine sim_recorded_kept (sim_traceLet h.equipped hopen name
        (builds_expr value hvalue h.equipped hseen')) fun hrel hframes => ?_
      refine sim_declareValue h.env (hdeclared name (by simp [declared, Pattern.names])) ?_
      refine (sim_expr value hvalue hrel h.env fun n hn => hfree n ?_).imp
        fun _ hvalued => hvalued.returned fun hstrict => (hframes hstrict).ne_nil
      simpa [Stmt.freeNames, Stmt.freeNamesDeclarators] using hn
  | letNone =>
      rename_i pos kind name
      refine sim_recorded_kept (sim_traceLet h.equipped hopen name (builds_undefined h.equipped))
        fun hrel hframes => ?_
      exact sim_declareNone hrel h.env (hdeclared name (by simp [declared, Pattern.names]))
        fun hstrict => (hframes hstrict).ne_nil
  | function woven =>
      rename_i pos name params body body' closure
      have hclosure : Builds call' env' m' closure :=
        builds_closure h.equipped woven (by simpa [Stmt.freeNames] using hseen)
      refine sim_recorded_kept (sim_traceLet h.equipped hopen name hclosure) fun hrel hframes => ?_
      exact .pure hrel (.next fun hstrict => .refl (hframes hstrict).ne_nil)
  | ifThen htest hname hyes hjoin =>
      rename_i pos test traced consequent yes name ν₁ ν₂
      exact sim_ifThen h hν htest hname (sim_stmts consequent) hyes hfits.2
        (List.forall_mem_append.mp hfree).1 hseen
  | ifElse htest hname hyes hno hjoin =>
      rename_i pos test traced consequent alternate yes no name ν₁ ν₂ ν₃
      exact sim_ifElse h hν htest hname (sim_stmts consequent) (sim_stmts alternate) hyes hno
        hfits.2.1 hfits.2.2 (List.forall_mem_append.mp hfree).1 hseen
  | whileDo htest hbody =>
      rename_i pos test traced body body' ν₁
      exact sim_whileDo h hν htest (sim_stmts body) hbody hfits.2
        (List.forall_mem_append.mp hfree).1 hseen
  | labeled hbody =>
      rename_i pos label body body'
      exact sim_labeled h hν (sim_stmts body) hbody hfits.2
        (fun hstrict => hhere.label hstrict pos label body rfl) hseen
  | breakTo hlabel => exact sim_breakTo h hlabel
  | returnNone hplace =>
      exact sim_returnWith h hplace (builds_undefined h.equipped)
        fun hrel hframes => .pure hrel (.returnWith hplace .undefined hframes)
  | returnSome hplace hvalue =>
      refine sim_returnWith h hplace (builds_expr _ hvalue h.equipped hseen) fun hrel hframes => ?_
      refine (sim_expr _ hvalue hrel h.env hfree).bind fun _ hrel' _ ⟨hv, hquiet⟩ => ?_
      exact .pure hrel' (.returnWith hplace hv fun hstrict =>
        (hframes hstrict).trans (congrArg some (Machine.frames_of_adapter hquiet.adapter).symm))
  | block hbody =>
      rename_i pos body body'
      rw [execList_singleton]
      exact sim_block h hν (sim_stmts body) hbody hfits.2 hseen
  | expr woven => exact sim_wovenExpr h woven hhere hseen
termination_by sizeOf s

theorem sim_stmts (ss : List Stmt) : RunsAlike P ss := by
  intro W m m' env env' call call' place ν ν' bound out h hν hdeclared hweaves hfits hseen
  cases ss with
  | nil =>
      obtain ⟨rfl, -⟩ := weaves_nil hweaves
      exact .pure h.rel (.next fun hstrict => .refl (h.lists.ne_nil hstrict))
  | cons s ss =>
      obtain ⟨front, rest, ν₁, hs, hss, rfl⟩ := weaves_cons hweaves
      rw [declaredIn, List.flatMap_cons, List.forall_mem_append] at hdeclared
      have huses := (exact_stmt s rfl rfl hν hdeclared.1 hs).1
      rw [execList_append]
      refine (sim_stmt s h hν hs hfits.1 hseen.left).bind fun hle hrel _ hflows => ?_
      cases hflows with
      | next hF =>
          refine (sim_stmts ss (h.next hle hrel hF) (hν.uses huses) hdeclared.2 hss hfits.2
            ((hseen.right.uses huses).mono hle)).imp fun _ => .after hF
      | breakTo hlabel hF => exact .pure hrel (.breakTo hlabel hF)
      | returnWith hplace hv hF => exact .pure hrel (.returnWith hplace hv hF)
termination_by sizeOf ss

end

end TraceLoom
