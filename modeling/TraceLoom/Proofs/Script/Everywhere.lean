import TraceLoom.Script.Syntax

/-!
What holds of all statements of a program, those in the bodies of its functions included.  A
function expression counts where it is the value of a declaration.
-/

namespace TraceLoom.Script

variable (P : Stmt → Prop)

mutual

/-- A property of a statement and of all statements in it. -/
def Stmt.Everywhere : Stmt → Prop
  | .declare pos kind [(target, some (.function fpos self params body))] =>
    P (.declare pos kind [(target, some (.function fpos self params body))]) ∧
      Stmt.EverywhereIn body
  | .function pos name params body => P (.function pos name params body) ∧ Stmt.EverywhereIn body
  | .ifElse pos test consequent none =>
    P (.ifElse pos test consequent none) ∧ Stmt.EverywhereIn consequent
  | .ifElse pos test consequent (some alternate) =>
    P (.ifElse pos test consequent (some alternate)) ∧ Stmt.EverywhereIn consequent ∧
      Stmt.EverywhereIn alternate
  | .whileDo pos test body => P (.whileDo pos test body) ∧ Stmt.EverywhereIn body
  | .labeled pos label body => P (.labeled pos label body) ∧ Stmt.EverywhereIn body
  | .block pos body => P (.block pos body) ∧ Stmt.EverywhereIn body
  | s => P s
termination_by structural s => s

def Stmt.EverywhereIn : List Stmt → Prop
  | [] => True
  | s :: ss => Stmt.Everywhere s ∧ Stmt.EverywhereIn ss
termination_by structural ss => ss

end

section

variable {P} {Q R : Stmt → Prop}

theorem Stmt.Everywhere.here {s : Stmt} (h : s.Everywhere P) : P s := by
  unfold Stmt.Everywhere at h
  split at h <;> first | exact h.1 | exact h

theorem Stmt.EverywhereIn.mem {s : Stmt} {ss : List Stmt} (h : Stmt.EverywhereIn P ss) (hs : s ∈ ss) :
    s.Everywhere P := by
  induction ss with
  | nil => cases hs
  | cons t ss ih =>
      rcases List.mem_cons.mp hs with rfl | hmem
      · exact h.1
      · exact ih h.2 hmem

theorem everywhereIn_append {ss ts : List Stmt} :
    Stmt.EverywhereIn P (ss ++ ts) ↔ Stmt.EverywhereIn P ss ∧ Stmt.EverywhereIn P ts := by
  induction ss with
  | nil => simp [Stmt.EverywhereIn]
  | cons s ss ih => simp [Stmt.EverywhereIn, ih, and_assoc]

theorem everywhereIn_singleton {s : Stmt} : Stmt.EverywhereIn P [s] ↔ s.Everywhere P := by
  simp [Stmt.EverywhereIn]

theorem everywhere_declare {pos : Position} {kind : DeclKind} {target : Pattern} {e : Expr}
    (h : P (.declare pos kind [(target, some e)]))
    (hbody : ∀ fpos self params body, e = .function fpos self params body →
      Stmt.EverywhereIn P body) : Stmt.Everywhere P (.declare pos kind [(target, some e)]) := by
  cases e with
  | function fpos self params body => exact ⟨h, hbody fpos self params body rfl⟩
  | _ => exact h

mutual

/-- What follows from two properties of a statement holds wherever both do. -/
theorem Stmt.Everywhere.imp₂ (h : ∀ s, P s → Q s → R s) (s : Stmt) (hP : s.Everywhere P)
    (hQ : s.Everywhere Q) : s.Everywhere R := by
  unfold Stmt.Everywhere at hP hQ ⊢
  split at hP
  case h_4 =>
    exact ⟨h _ hP.1 hQ.1, EverywhereIn.imp₂ h _ hP.2.1 hQ.2.1, EverywhereIn.imp₂ h _ hP.2.2 hQ.2.2⟩
  case h_8 => simp_all
  all_goals exact ⟨h _ hP.1 hQ.1, EverywhereIn.imp₂ h _ hP.2 hQ.2⟩
termination_by sizeOf s

theorem Stmt.EverywhereIn.imp₂ (h : ∀ s, P s → Q s → R s) (ss : List Stmt)
    (hP : Stmt.EverywhereIn P ss) (hQ : Stmt.EverywhereIn Q ss) : Stmt.EverywhereIn R ss := by
  cases ss with
  | nil => exact trivial
  | cons s ss => exact ⟨Everywhere.imp₂ h s hP.1 hQ.1, EverywhereIn.imp₂ h ss hP.2 hQ.2⟩
termination_by sizeOf ss

end

end

/-- The parameters of the function that a statement declares. -/
def Stmt.params : Stmt → List String
  | .declare _ _ [(_, some (.function _ _ params _))] | .function _ _ params _ => params
  | _ => []

end TraceLoom.Script
