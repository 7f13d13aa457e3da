import TraceLoom.Proofs.Instrument.Closures
import TraceLoom.Proofs.Script.NormalNames

/-!
Names in accepted programs.  An accepted program neither declares nor uses the names under which
the instrumented program has its modules: where such a name is used it would have to be declared,
or to be one that every program has.
-/

namespace TraceLoom.Instrument

open Script

variable {l : Lower} {ν ν' : Names} {place : Place}

/-- A name that the instrumented program leaves to the program. -/
def Leaves (l : Lower) (n : String) : Prop :=
  l.options.isReserved n = false

/-- Around a list of statements no reserved name is used. -/
theorem leaves_of_filter {used declared : List String} (hdeclared : ∀ n ∈ declared, Leaves l n)
    (h : ∀ n ∈ used.filter (· ∉ declared), Leaves l n) : ∀ n ∈ used, Leaves l n := by
  intro n hn
  by_cases hmem : n ∈ declared
  · exact hdeclared n hmem
  · exact h n (List.mem_filter.mpr ⟨hn, by simpa using hmem⟩)

/-- Without reserved names around it a list of statements has none in it. -/
def LeavesIn (l : Lower) (body : List Stmt) : Prop :=
  ∀ {place : Place} {ν ν' : Names} {out : List Stmt}, Weaves (stmts l place body) ν out ν' →
    (∀ n ∈ declaredIn body, Leaves l n) → (∀ n ∈ Stmt.freeNamesList Option.toList body, Leaves l n) →
    Stmt.EverywhereIn (NamesFit (Leaves l)) body

theorem leaves_wovenBlock {body out : List Stmt} (hbody : LeavesIn l body)
    (huses : ∀ n ∈ (Stmt.freeNamesList Option.toList body).filter (· ∉ declaredIn body), Leaves l n)
    (h : WovenBlock l place body ν out ν') : Stmt.EverywhereIn (NamesFit (Leaves l)) body := by
  obtain ⟨-, hfree, hweaves⟩ := h
  exact hbody hweaves hfree (leaves_of_filter hfree huses)

theorem leaves_wovenFunction {params : List String} {body body' : List Stmt} {self : Option String}
    {holder : String} {closure : Expr} (hbody : LeavesIn l body)
    (huses : ∀ n ∈ (Stmt.freeNamesList Option.toList body).filter
      (· ∉ params ++ declaredIn body ++ self.toList), Leaves l n)
    (h : WovenFunction l params body ν (self.map (·, holder)) body' closure ν') :
    (∀ n ∈ params, Leaves l n) ∧ Stmt.EverywhereIn (NamesFit (Leaves l)) body := by
  generalize hself : self.map (·, holder) = self' at h
  cases h with
  | anonymous hparams hwoven =>
      obtain rfl : self = none := by simpa using hself
      obtain ⟨-, hfree, hweaves⟩ := hwoven
      refine ⟨hparams, hbody hweaves hfree (leaves_of_filter ?_ huses)⟩
      rw [Option.toList_none, List.append_nil]
      exact List.forall_mem_append.mpr ⟨hparams, hfree⟩
  | named hparams hself' hwoven =>
      rename_i name holder'
      obtain rfl : self = some name := by
        cases self with
        | none => cases hself
        | some n => cases hself; rfl
      obtain ⟨-, hfree, hweaves⟩ := hwoven
      refine ⟨hparams, hbody hweaves hfree (leaves_of_filter ?_ huses)⟩
      exact List.forall_mem_append.mpr ⟨List.forall_mem_append.mpr ⟨hparams, hfree⟩,
        List.forall_mem_singleton.mpr hself'⟩

mutual

theorem leaves_stmt {place : Place} (s : Stmt) {ν ν' : Names} {out : List Stmt}
    (h : Woven l place ν s out ν') (hdeclared : ∀ n ∈ declared s, Leaves l n)
    (huses : ∀ n ∈ s.freeNames Option.toList, Leaves l n) : s.Everywhere (NamesFit (Leaves l)) := by
  have hnames (hparams : ∀ n ∈ s.params, Leaves l n) : NamesFit (Leaves l) s :=
    List.forall_mem_append.mpr ⟨List.forall_mem_append.mpr ⟨hdeclared, hparams⟩, huses⟩
  cases h with
  | letFunction hwoven =>
      rename_i pos fpos kind name self params body body' closure ν₁
      have hbody : ∀ n ∈ (Stmt.freeNamesList Option.toList body).filter
          (· ∉ params ++ declaredIn body ++ self.toList), Leaves l n := by
        simpa [Stmt.freeNames, Stmt.freeNamesDeclarators, Expr.freeNames] using huses
      obtain ⟨hparams, hbody⟩ := leaves_wovenFunction (leaves_stmts body) hbody hwoven
      exact ⟨hnames hparams, hbody⟩
  | function hwoven =>
      rename_i pos name params body body' closure
      change WovenFunction l params body ν (Option.map (·, name) none) body' closure ν' at hwoven
      obtain ⟨hparams, hbody⟩ := leaves_wovenFunction (leaves_stmts body)
        (by simpa [Stmt.freeNames] using huses) hwoven
      exact ⟨hnames hparams, hbody⟩
  | letCall | letNone => exact hnames nofun
  | letValue hvalue =>
      rename_i pos kind name value traced ν₁
      cases value with
      | function => exact absurd hvalue run_throw_ne_ok
      | _ => exact hnames nofun
  | ifThen htest hname hyes hjoin =>
      rename_i pos test traced consequent yes name ν₁ ν₂
      obtain ⟨-, huses⟩ := List.forall_mem_append.mp huses
      exact ⟨hnames nofun, leaves_wovenBlock (leaves_stmts consequent) huses hyes⟩
  | ifElse htest hname hyes hno hjoin =>
      rename_i pos test traced consequent alternate yes no name ν₁ ν₂ ν₃
      obtain ⟨-, huses⟩ := List.forall_mem_append.mp huses
      obtain ⟨husesYes, husesNo⟩ := List.forall_mem_append.mp huses
      exact ⟨hnames nofun, leaves_wovenBlock (leaves_stmts consequent) husesYes hyes,
        leaves_wovenBlock (leaves_stmts alternate) husesNo hno⟩
  | whileDo htest hbody =>
      rename_i pos test traced body body' ν₁
      obtain ⟨-, huses⟩ := List.forall_mem_append.mp huses
      exact ⟨hnames nofun, leaves_wovenBlock (leaves_stmts body) huses hbody⟩
  | labeled hbody | block hbody =>
      exact ⟨hnames nofun, leaves_wovenBlock (leaves_stmts _) huses hbody⟩
  | breakTo | returnNone | returnSome | expr => exact hnames nofun
termination_by sizeOf s

theorem leaves_stmts (ss : List Stmt) : LeavesIn l ss := by
  intro place ν ν' out h hdeclared huses
  cases ss with
  | nil => exact trivial
  | cons s ss =>
      obtain ⟨front, rest, ν₁, hs, hss, rfl⟩ := weaves_cons h
      rw [declaredIn, List.flatMap_cons, List.forall_mem_append] at hdeclared
      obtain ⟨hhere, hrest⟩ := List.forall_mem_append.mp huses
      exact ⟨leaves_stmt s hs hdeclared.1 hhere, leaves_stmts ss hss hdeclared.2 hrest⟩
termination_by sizeOf ss

end

section

variable {p : Program} {bound : Names} {out : List Stmt} (hrequire : l.primitives.isGlobal "require")
  (hconsole : l.primitives.isGlobal "console")

include hrequire hconsole

/-- What a program uses and has to provide itself it declares, if nothing is captured from it. -/
theorem mem_declaredIn_of_captures (hbinds : Names.none.Binds (declaredIn p) bound)
    (hweaves : Weaves (stmts l .top p) bound out ν') (hcaptures : ν'.captures = []) {n : String}
    (hn : n ∈ Stmt.freeNamesList Option.toList p) (hmay : l.primitives.mayCapture n = true) :
    n ∈ declaredIn p := by
  have hsees : bound.Sees (declaredIn p) := Names.Sees.none.binds hbinds
  have huses := (exact_stmts p hrequire hconsole hsees (fun _ => id) hweaves).1
  have hnone : n ∉ ν'.captures.map (·.1) := by simp [hcaptures]
  rw [Names.mem_captures_iff (huses.nodup hsees.nodup),
    Names.captured_iff_of_binds hbinds huses, List.mem_filter, List.mem_filter] at hnone
  by_contra hdeclared
  exact hnone ⟨⟨hn, hmay⟩, by simpa using hdeclared⟩

/-- An accepted program has no reserved names. -/
theorem leaves_of_instrument {q : Program}
    (hglobals : ∀ n, l.options.isReserved n = true → l.primitives.mayCapture n = true)
    (h : instrument l.options l.primitives p = .ok q) :
    Stmt.EverywhereIn (NamesFit (Leaves l)) p := by
  obtain ⟨out, ν', ⟨hbinds, hfree, hweaves⟩, hcaptures, -⟩ := instrument_eq_ok h
  refine leaves_stmts p hweaves hfree fun n hn => ?_
  cases hreserved : l.options.isReserved n with
  | false => exact hreserved
  | true =>
      exact hfree n (mem_declaredIn_of_captures hrequire hconsole hbinds hweaves hcaptures hn
        (hglobals n hreserved))

end

end TraceLoom.Instrument
