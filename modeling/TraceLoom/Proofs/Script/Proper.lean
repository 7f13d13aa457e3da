import TraceLoom.Script.Syntax

/-!
Programs whose names are as they should be.  A vocabulary says which words may name variables,
functions, labels and properties, and which statements are taken as a whole.
-/

namespace TraceLoom.Script

/-- Which words may stand for what, and which statements may contain others. -/
structure Vocabulary where
  /-- Names of variables and parameters. -/
  own : String → Prop
  /-- Names that functions give themselves. -/
  self : String → Prop
  label : String → Prop
  property : String → Prop
  /-- Statements that are not looked into. -/
  inserted : Stmt → Prop
  self_of_own : ∀ {w}, own w → self w
  label_of_own : ∀ {w}, own w → label w
  not_block : ∀ {pos body}, ¬ inserted (.block pos body)
  not_function : ∀ {pos name params body}, ¬ inserted (.function pos name params body)

section

variable (V : Vocabulary)

/-! ## Trees -/

mutual

/-- An expression in which all names are as they should be. -/
def Expr.Proper : Expr → Prop
  | .number .. | .string .. | .boolean .. | .null _ => True
  | .name _ n => V.own n
  | .array _ items => Expr.ProperList items
  | .object _ entries => Expr.ProperEntries entries
  | .function _ name params body =>
    (∀ n ∈ name, V.self n) ∧ (∀ n ∈ params, V.own n) ∧ Stmt.ProperList body
  | .member _ object property => object.Proper ∧ V.property property
  | .index _ object index => object.Proper ∧ index.Proper
  | .call _ callee args => callee.Proper ∧ Expr.ProperList args
  | .unary _ _ operand => operand.Proper
  | .binary _ _ left right => left.Proper ∧ right.Proper
  | .assign _ _ target value => target.Proper ∧ value.Proper
  | .update _ _ _ target => target.Proper
termination_by structural e => e

def Expr.ProperList : List Expr → Prop
  | [] => True
  | e :: es => e.Proper ∧ Expr.ProperList es
termination_by structural es => es

def Expr.ProperEntries : List (String × Expr) → Prop
  | [] => True
  | (_, e) :: es => e.Proper ∧ Expr.ProperEntries es
termination_by structural es => es

/-- A statement that is looked into, in which all names are as they should be. -/
def Stmt.Ordinary : Stmt → Prop
  | .declare _ _ declarators => Stmt.ProperDeclarators declarators
  | .function _ name params body =>
    V.self name ∧ (∀ n ∈ params, V.own n) ∧ Stmt.ProperList body
  | .ifElse _ test consequent none => test.Proper ∧ Stmt.ProperList consequent
  | .ifElse _ test consequent (some alternate) =>
    test.Proper ∧ Stmt.ProperList consequent ∧ Stmt.ProperList alternate
  | .whileDo _ test body => test.Proper ∧ Stmt.ProperList body
  | .labeled _ label body => V.label label ∧ Stmt.ProperList body
  | .breakTo _ label => ∀ n ∈ label, V.label n
  | .returnWith _ none => True
  | .returnWith _ (some e) => e.Proper
  | .block _ body => Stmt.ProperList body
  | .expr _ e => e.Proper
termination_by structural s => s

def Stmt.ProperDeclarators : List (Pattern × Option Expr) → Prop
  | [] => True
  | (target, none) :: ds => (∀ n ∈ target.names, V.own n) ∧ Stmt.ProperDeclarators ds
  | (target, some e) :: ds =>
    (∀ n ∈ target.names, V.own n) ∧ e.Proper ∧ Stmt.ProperDeclarators ds
termination_by structural ds => ds

def Stmt.ProperList : List Stmt → Prop
  | [] => True
  | s :: ss => (V.inserted s ∨ s.Ordinary) ∧ Stmt.ProperList ss
termination_by structural ss => ss

end

/-- A statement in which all names are as they should be. -/
def Stmt.Proper (s : Stmt) : Prop :=
  V.inserted s ∨ s.Ordinary V

variable {V}

theorem Expr.properList_iff {es : List Expr} : Expr.ProperList V es ↔ ∀ e ∈ es, e.Proper V := by
  induction es with
  | nil => simp [Expr.ProperList]
  | cons e es ih => simp [Expr.ProperList, ih]

theorem Expr.properEntries_iff {entries : List (String × Expr)} :
    Expr.ProperEntries V entries ↔ ∀ entry ∈ entries, entry.2.Proper V := by
  induction entries with
  | nil => simp [Expr.ProperEntries]
  | cons entry entries ih => simp [Expr.ProperEntries, ih]

theorem Stmt.properList_iff {ss : List Stmt} : Stmt.ProperList V ss ↔ ∀ s ∈ ss, s.Proper V := by
  induction ss with
  | nil => simp [Stmt.ProperList]
  | cons s ss ih => simp [Stmt.ProperList, Stmt.Proper, ih]

theorem Stmt.properDeclarators_iff {ds : List (Pattern × Option Expr)} :
    Stmt.ProperDeclarators V ds ↔
      ∀ d ∈ ds, (∀ n ∈ d.1.names, V.own n) ∧ ∀ e ∈ d.2, e.Proper V := by
  induction ds with
  | nil => simp [Stmt.ProperDeclarators]
  | cons d ds ih =>
      obtain ⟨target, init⟩ := d
      cases init <;> simp [Stmt.ProperDeclarators, ih, and_assoc]

/-! ## All words -/

/-- The vocabulary of any program. -/
def Vocabulary.all : Vocabulary where
  own _ := True
  self _ := True
  label _ := True
  property _ := True
  inserted _ := False
  self_of_own := id
  label_of_own := id
  not_block := id
  not_function := id

mutual

theorem Expr.proper_all : (e : Expr) → e.Proper .all
  | .number .. | .string .. | .boolean .. | .null _ | .name .. => trivial
  | .array _ items => Expr.properList_all items
  | .object _ entries => Expr.properEntries_all entries
  | .function _ _ _ body => ⟨fun _ _ => trivial, fun _ _ => trivial, Stmt.properList_all body⟩
  | .member _ object _ => ⟨object.proper_all, trivial⟩
  | .index _ object index => ⟨object.proper_all, index.proper_all⟩
  | .call _ callee args => ⟨callee.proper_all, Expr.properList_all args⟩
  | .unary _ _ operand => operand.proper_all
  | .binary _ _ left right => ⟨left.proper_all, right.proper_all⟩
  | .assign _ _ target value => ⟨target.proper_all, value.proper_all⟩
  | .update _ _ _ target => target.proper_all
termination_by structural e => e

theorem Expr.properList_all : (es : List Expr) → Expr.ProperList .all es
  | [] => trivial
  | e :: es => ⟨e.proper_all, Expr.properList_all es⟩
termination_by structural es => es

theorem Expr.properEntries_all : (es : List (String × Expr)) → Expr.ProperEntries .all es
  | [] => trivial
  | (_, e) :: es => ⟨e.proper_all, Expr.properEntries_all es⟩
termination_by structural es => es

theorem Stmt.ordinary_all : (s : Stmt) → s.Ordinary .all
  | .declare _ _ declarators => Stmt.properDeclarators_all declarators
  | .function _ _ _ body => ⟨trivial, fun _ _ => trivial, Stmt.properList_all body⟩
  | .ifElse _ test consequent none => ⟨test.proper_all, Stmt.properList_all consequent⟩
  | .ifElse _ test consequent (some alternate) =>
    ⟨test.proper_all, Stmt.properList_all consequent, Stmt.properList_all alternate⟩
  | .whileDo _ test body => ⟨test.proper_all, Stmt.properList_all body⟩
  | .labeled _ _ body => ⟨trivial, Stmt.properList_all body⟩
  | .breakTo .. => fun _ _ => trivial
  | .returnWith _ none => trivial
  | .returnWith _ (some e) => e.proper_all
  | .block _ body => Stmt.properList_all body
  | .expr _ e => e.proper_all
termination_by structural s => s

theorem Stmt.properDeclarators_all :
    (ds : List (Pattern × Option Expr)) → Stmt.ProperDeclarators .all ds
  | [] => trivial
  | (_, none) :: ds => ⟨fun _ _ => trivial, Stmt.properDeclarators_all ds⟩
  | (_, some e) :: ds => ⟨fun _ _ => trivial, e.proper_all, Stmt.properDeclarators_all ds⟩
termination_by structural ds => ds

theorem Stmt.properList_all : (ss : List Stmt) → Stmt.ProperList .all ss
  | [] => trivial
  | s :: ss => ⟨.inr s.ordinary_all, Stmt.properList_all ss⟩
termination_by structural ss => ss

end

end

end TraceLoom.Script
