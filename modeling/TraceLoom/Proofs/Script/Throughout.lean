import TraceLoom.Script.Syntax

/-!
What holds of all expressions and statements in a program, wherever they stand.
-/

namespace TraceLoom.Script

section

variable (E : Expr → Prop) (S : Stmt → Prop)

mutual

/-- A property of an expression and of all expressions in it, and another one of all statements. -/
def Expr.Throughout : Expr → Prop
  | .array pos items => E (.array pos items) ∧ Expr.ThroughoutList items
  | .object pos entries => E (.object pos entries) ∧ Expr.ThroughoutEntries entries
  | .function pos name params body =>
    E (.function pos name params body) ∧ Stmt.ThroughoutList body
  | .member pos object property => E (.member pos object property) ∧ object.Throughout
  | .index pos object index =>
    E (.index pos object index) ∧ object.Throughout ∧ index.Throughout
  | .call pos callee args =>
    E (.call pos callee args) ∧ callee.Throughout ∧ Expr.ThroughoutList args
  | .unary pos op operand => E (.unary pos op operand) ∧ operand.Throughout
  | .binary pos op left right =>
    E (.binary pos op left right) ∧ left.Throughout ∧ right.Throughout
  | .assign pos op target value =>
    E (.assign pos op target value) ∧ target.Throughout ∧ value.Throughout
  | .update pos op isPrefix target => E (.update pos op isPrefix target) ∧ target.Throughout
  | e => E e
termination_by structural e => e

def Expr.ThroughoutList : List Expr → Prop
  | [] => True
  | e :: es => e.Throughout ∧ Expr.ThroughoutList es
termination_by structural es => es

def Expr.ThroughoutEntries : List (String × Expr) → Prop
  | [] => True
  | (_, e) :: es => e.Throughout ∧ Expr.ThroughoutEntries es
termination_by structural es => es

def Stmt.Throughout : Stmt → Prop
  | .declare pos kind ds => S (.declare pos kind ds) ∧ Stmt.ThroughoutDeclarators ds
  | .function pos name params body =>
    S (.function pos name params body) ∧ Stmt.ThroughoutList body
  | .ifElse pos test consequent none =>
    S (.ifElse pos test consequent none) ∧ test.Throughout ∧ Stmt.ThroughoutList consequent
  | .ifElse pos test consequent (some alternate) =>
    S (.ifElse pos test consequent (some alternate)) ∧ test.Throughout ∧
      Stmt.ThroughoutList consequent ∧ Stmt.ThroughoutList alternate
  | .whileDo pos test body =>
    S (.whileDo pos test body) ∧ test.Throughout ∧ Stmt.ThroughoutList body
  | .labeled pos label body => S (.labeled pos label body) ∧ Stmt.ThroughoutList body
  | .breakTo pos label => S (.breakTo pos label)
  | .returnWith pos none => S (.returnWith pos none)
  | .returnWith pos (some e) => S (.returnWith pos (some e)) ∧ e.Throughout
  | .block pos body => S (.block pos body) ∧ Stmt.ThroughoutList body
  | .expr pos e => S (.expr pos e) ∧ e.Throughout
termination_by structural s => s

def Stmt.ThroughoutDeclarators : List (Pattern × Option Expr) → Prop
  | [] => True
  | (_, none) :: ds => Stmt.ThroughoutDeclarators ds
  | (_, some e) :: ds => e.Throughout ∧ Stmt.ThroughoutDeclarators ds
termination_by structural ds => ds

def Stmt.ThroughoutList : List Stmt → Prop
  | [] => True
  | s :: ss => s.Throughout ∧ Stmt.ThroughoutList ss
termination_by structural ss => ss

end

end

section

variable {E E' : Expr → Prop} {S S' : Stmt → Prop}

/-! ## Lists -/

theorem Expr.throughoutList_iff {es : List Expr} :
    Expr.ThroughoutList E S es ↔ ∀ e ∈ es, e.Throughout E S := by
  induction es with
  | nil => simp [Expr.ThroughoutList]
  | cons e es ih => simp [Expr.ThroughoutList, ih]

theorem Expr.throughoutEntries_iff {entries : List (String × Expr)} :
    Expr.ThroughoutEntries E S entries ↔ ∀ entry ∈ entries, entry.2.Throughout E S := by
  induction entries with
  | nil => simp [Expr.ThroughoutEntries]
  | cons entry entries ih => simp [Expr.ThroughoutEntries, ih]

theorem Stmt.throughoutDeclarators_iff {ds : List (Pattern × Option Expr)} :
    Stmt.ThroughoutDeclarators E S ds ↔ ∀ d ∈ ds, ∀ e ∈ d.2, e.Throughout E S := by
  induction ds with
  | nil => simp [Stmt.ThroughoutDeclarators]
  | cons d ds ih =>
      obtain ⟨target, init⟩ := d
      cases init <;> simp [Stmt.ThroughoutDeclarators, ih]

theorem Stmt.throughoutList_iff {ss : List Stmt} :
    Stmt.ThroughoutList E S ss ↔ ∀ s ∈ ss, s.Throughout E S := by
  induction ss with
  | nil => simp [Stmt.ThroughoutList]
  | cons s ss ih => simp [Stmt.ThroughoutList, ih]

theorem throughoutList_append {ss ts : List Stmt} : Stmt.ThroughoutList E S (ss ++ ts) ↔
    Stmt.ThroughoutList E S ss ∧ Stmt.ThroughoutList E S ts := by
  simp only [Stmt.throughoutList_iff, List.forall_mem_append]

/-! ## Two properties -/

mutual

/-- Where two properties hold throughout, so does their conjunction. -/
theorem Expr.throughout_and : (e : Expr) → e.Throughout E S → e.Throughout E' S' →
    e.Throughout (fun e => E e ∧ E' e) (fun s => S s ∧ S' s)
  | .number .., h, h' | .string .., h, h' | .boolean .., h, h' | .null _, h, h'
  | .name .., h, h' => ⟨h, h'⟩
  | .array _ items, h, h' => ⟨⟨h.1, h'.1⟩, Expr.throughoutList_and items h.2 h'.2⟩
  | .object _ entries, h, h' => ⟨⟨h.1, h'.1⟩, Expr.throughoutEntries_and entries h.2 h'.2⟩
  | .function _ _ _ body, h, h' => ⟨⟨h.1, h'.1⟩, Stmt.throughoutList_and body h.2 h'.2⟩
  | .member _ object _, h, h' => ⟨⟨h.1, h'.1⟩, Expr.throughout_and object h.2 h'.2⟩
  | .index _ object index, h, h' =>
      ⟨⟨h.1, h'.1⟩, Expr.throughout_and object h.2.1 h'.2.1, Expr.throughout_and index h.2.2 h'.2.2⟩
  | .call _ callee args, h, h' =>
      ⟨⟨h.1, h'.1⟩, Expr.throughout_and callee h.2.1 h'.2.1,
        Expr.throughoutList_and args h.2.2 h'.2.2⟩
  | .unary _ _ operand, h, h' => ⟨⟨h.1, h'.1⟩, Expr.throughout_and operand h.2 h'.2⟩
  | .binary _ _ left right, h, h' =>
      ⟨⟨h.1, h'.1⟩, Expr.throughout_and left h.2.1 h'.2.1, Expr.throughout_and right h.2.2 h'.2.2⟩
  | .assign _ _ target value, h, h' =>
      ⟨⟨h.1, h'.1⟩, Expr.throughout_and target h.2.1 h'.2.1, Expr.throughout_and value h.2.2 h'.2.2⟩
  | .update _ _ _ target, h, h' => ⟨⟨h.1, h'.1⟩, Expr.throughout_and target h.2 h'.2⟩

theorem Expr.throughoutList_and : (es : List Expr) → Expr.ThroughoutList E S es →
    Expr.ThroughoutList E' S' es →
      Expr.ThroughoutList (fun e => E e ∧ E' e) (fun s => S s ∧ S' s) es
  | [], _, _ => trivial
  | e :: es, h, h' => ⟨Expr.throughout_and e h.1 h'.1, Expr.throughoutList_and es h.2 h'.2⟩

theorem Expr.throughoutEntries_and : (es : List (String × Expr)) → Expr.ThroughoutEntries E S es →
    Expr.ThroughoutEntries E' S' es →
      Expr.ThroughoutEntries (fun e => E e ∧ E' e) (fun s => S s ∧ S' s) es
  | [], _, _ => trivial
  | (_, e) :: es, h, h' => ⟨Expr.throughout_and e h.1 h'.1, Expr.throughoutEntries_and es h.2 h'.2⟩

theorem Stmt.throughout_and : (s : Stmt) → s.Throughout E S → s.Throughout E' S' →
    s.Throughout (fun e => E e ∧ E' e) (fun s => S s ∧ S' s)
  | .declare _ _ ds, h, h' => ⟨⟨h.1, h'.1⟩, Stmt.throughoutDeclarators_and ds h.2 h'.2⟩
  | .function _ _ _ body, h, h' => ⟨⟨h.1, h'.1⟩, Stmt.throughoutList_and body h.2 h'.2⟩
  | .ifElse _ test consequent none, h, h' =>
      ⟨⟨h.1, h'.1⟩, Expr.throughout_and test h.2.1 h'.2.1,
        Stmt.throughoutList_and consequent h.2.2 h'.2.2⟩
  | .ifElse _ test consequent (some alternate), h, h' =>
      ⟨⟨h.1, h'.1⟩, Expr.throughout_and test h.2.1 h'.2.1,
        Stmt.throughoutList_and consequent h.2.2.1 h'.2.2.1,
        Stmt.throughoutList_and alternate h.2.2.2 h'.2.2.2⟩
  | .whileDo _ test body, h, h' =>
      ⟨⟨h.1, h'.1⟩, Expr.throughout_and test h.2.1 h'.2.1,
        Stmt.throughoutList_and body h.2.2 h'.2.2⟩
  | .labeled _ _ body, h, h' | .block _ body, h, h' =>
      ⟨⟨h.1, h'.1⟩, Stmt.throughoutList_and body h.2 h'.2⟩
  | .breakTo .., h, h' | .returnWith _ none, h, h' => ⟨h, h'⟩
  | .returnWith _ (some e), h, h' | .expr _ e, h, h' =>
      ⟨⟨h.1, h'.1⟩, Expr.throughout_and e h.2 h'.2⟩

theorem Stmt.throughoutDeclarators_and : (ds : List (Pattern × Option Expr)) →
    Stmt.ThroughoutDeclarators E S ds → Stmt.ThroughoutDeclarators E' S' ds →
      Stmt.ThroughoutDeclarators (fun e => E e ∧ E' e) (fun s => S s ∧ S' s) ds
  | [], _, _ => trivial
  | (_, none) :: ds, h, h' => Stmt.throughoutDeclarators_and ds h h'
  | (_, some e) :: ds, h, h' =>
      ⟨Expr.throughout_and e h.1 h'.1, Stmt.throughoutDeclarators_and ds h.2 h'.2⟩

theorem Stmt.throughoutList_and : (ss : List Stmt) → Stmt.ThroughoutList E S ss →
    Stmt.ThroughoutList E' S' ss →
      Stmt.ThroughoutList (fun e => E e ∧ E' e) (fun s => S s ∧ S' s) ss
  | [], _, _ => trivial
  | s :: ss, h, h' => ⟨Stmt.throughout_and s h.1 h'.1, Stmt.throughoutList_and ss h.2 h'.2⟩

end

end

end TraceLoom.Script
