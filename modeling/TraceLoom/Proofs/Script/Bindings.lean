import Mathlib
import TraceLoom.Proofs.Script.NormalNames

/-!
What normalizing binds.  The lists of statements of a program stay where they are, the body of a
function that is moved included, and each declares what it did before, the functions that are moved
into it and generated names.  Generated names are made once each, and the program has none of them,
but that the name which a function expression gives itself is not looked at where the function is
the value of a declaration.
-/

namespace TraceLoom.Script

open NormalForm
open Instrument (declared)

/-! ## Names and blocks of a program -/

mutual

/-- The names in an expression: those it uses, and those its functions have, take and declare. -/
def Expr.names : Expr → List String
  | .name _ n => [n]
  | .array _ items => Expr.namesList items
  | .object _ entries => Expr.namesEntries entries
  | .function _ self params body => self.toList ++ (params ++ Stmt.namesList body)
  | .member _ base _ => base.names
  | .index _ base key => base.names ++ key.names
  | .call _ callee args => callee.names ++ Expr.namesList args
  | .unary _ _ operand => operand.names
  | .binary _ _ left right => left.names ++ right.names
  | .assign _ _ target value => target.names ++ value.names
  | .update _ _ _ target => target.names
  | .number .. | .string .. | .boolean .. | .null _ => []
termination_by structural e => e

def Expr.namesList : List Expr → List String
  | [] => []
  | e :: es => e.names ++ Expr.namesList es
termination_by structural es => es

def Expr.namesEntries : List (String × Expr) → List String
  | [] => []
  | (_, e) :: es => e.names ++ Expr.namesEntries es
termination_by structural es => es

/-- The names in a statement, but for those that functions give themselves which are the values of
declarations. -/
def Stmt.names : Stmt → List String
  | .declare _ _ ds => Stmt.namesDeclarators ds
  | .function _ n params body => n :: (params ++ Stmt.namesList body)
  | .ifElse _ test consequent none => test.names ++ Stmt.namesList consequent
  | .ifElse _ test consequent (some alternate) =>
    test.names ++ (Stmt.namesList consequent ++ Stmt.namesList alternate)
  | .whileDo _ test body => test.names ++ Stmt.namesList body
  | .labeled _ _ body | .block _ body => Stmt.namesList body
  | .breakTo .. | .returnWith _ none => []
  | .returnWith _ (some value) => value.names
  | .expr _ e => e.names
termination_by structural s => s

def Stmt.namesDeclarators : List (Pattern × Option Expr) → List String
  | [] => []
  | (target, none) :: ds => target.names ++ Stmt.namesDeclarators ds
  | (target, some (.function _ _ params body)) :: ds =>
    target.names ++ ((params ++ Stmt.namesList body) ++ Stmt.namesDeclarators ds)
  | (target, some e) :: ds => target.names ++ (e.names ++ Stmt.namesDeclarators ds)
termination_by structural ds => ds

def Stmt.namesList : List Stmt → List String
  | [] => []
  | s :: ss => s.names ++ Stmt.namesList ss
termination_by structural ss => ss

end

mutual

/-- The names that the functions in an expression give themselves. -/
def Expr.selfNames : Expr → List String
  | .function _ self _ _ => self.toList
  | .array _ items => Expr.selfNamesList items
  | .object _ entries => Expr.selfNamesEntries entries
  | .member _ base _ => base.selfNames
  | .index _ base key => base.selfNames ++ key.selfNames
  | .call _ callee args => callee.selfNames ++ Expr.selfNamesList args
  | .unary _ _ operand => operand.selfNames
  | .binary _ _ left right => left.selfNames ++ right.selfNames
  | .assign _ _ target value => target.selfNames ++ value.selfNames
  | .update _ _ _ target => target.selfNames
  | .number .. | .string .. | .boolean .. | .null _ | .name .. => []
termination_by structural e => e

def Expr.selfNamesList : List Expr → List String
  | [] => []
  | e :: es => e.selfNames ++ Expr.selfNamesList es
termination_by structural es => es

def Expr.selfNamesEntries : List (String × Expr) → List String
  | [] => []
  | (_, e) :: es => e.selfNames ++ Expr.selfNamesEntries es
termination_by structural es => es

end

/-- What a declarator binds, behind the functions that are moved out of its value. -/
def bindingsOf : Pattern × Option Expr → List String
  | (target, none) | (target, some (.function ..)) => target.names
  | (target, some e) => e.selfNames ++ target.names

/-- What a statement declares, and the functions that are moved out of it, in order. -/
def Stmt.bindings : Stmt → List String
  | .declare _ _ ds => ds.flatMap bindingsOf
  | .function _ n _ _ => [n]
  | .ifElse _ test _ _ | .whileDo _ test _ => test.selfNames
  | .returnWith _ (some value) => value.selfNames
  | .expr _ e => e.selfNames
  | .labeled .. | .breakTo .. | .returnWith _ none | .block .. => []

mutual

/-- The lists of statements in an expression, each before those in it. -/
def Expr.blocks : Expr → List (List Stmt)
  | .function _ _ _ body => body :: Stmt.blocksIn body
  | .array _ items => Expr.blocksList items
  | .object _ entries => Expr.blocksEntries entries
  | .member _ base _ => base.blocks
  | .index _ base key => base.blocks ++ key.blocks
  | .call _ callee args => callee.blocks ++ Expr.blocksList args
  | .unary _ _ operand => operand.blocks
  | .binary _ _ left right => left.blocks ++ right.blocks
  | .assign _ _ target value => target.blocks ++ value.blocks
  | .update _ _ _ target => target.blocks
  | .number .. | .string .. | .boolean .. | .null _ | .name .. => []
termination_by structural e => e

def Expr.blocksList : List Expr → List (List Stmt)
  | [] => []
  | e :: es => e.blocks ++ Expr.blocksList es
termination_by structural es => es

def Expr.blocksEntries : List (String × Expr) → List (List Stmt)
  | [] => []
  | (_, e) :: es => e.blocks ++ Expr.blocksEntries es
termination_by structural es => es

def Stmt.blocks : Stmt → List (List Stmt)
  | .declare _ _ ds => Stmt.blocksDeclarators ds
  | .function _ _ _ body => body :: Stmt.blocksIn body
  | .ifElse _ test consequent none => test.blocks ++ (consequent :: Stmt.blocksIn consequent)
  | .ifElse _ test consequent (some alternate) =>
    test.blocks ++ ((consequent :: Stmt.blocksIn consequent) ++
      (alternate :: Stmt.blocksIn alternate))
  | .whileDo _ test body => test.blocks ++ (body :: Stmt.blocksIn body)
  | .labeled _ _ body | .block _ body => body :: Stmt.blocksIn body
  | .breakTo .. | .returnWith _ none => []
  | .returnWith _ (some value) => value.blocks
  | .expr _ e => e.blocks
termination_by structural s => s

def Stmt.blocksDeclarators : List (Pattern × Option Expr) → List (List Stmt)
  | [] => []
  | (_, none) :: ds => Stmt.blocksDeclarators ds
  | (_, some e) :: ds => e.blocks ++ Stmt.blocksDeclarators ds
termination_by structural ds => ds

/-- The lists of statements in a list of statements, in order. -/
def Stmt.blocksIn : List Stmt → List (List Stmt)
  | [] => []
  | s :: ss => s.blocks ++ Stmt.blocksIn ss
termination_by structural ss => ss

end

/-- A list of statements of a program and what it becomes: it declares what it did, the functions
that are moved into it, and generated names. -/
def BindsAs (body body' : List Stmt) : Prop :=
  (declaredIn body').filter (!isReserved ·) = body.flatMap Stmt.bindings

/-! ## Generated names -/

/-- All names that statements declare, in whatever list. -/
def declaredThroughout (ss : List Stmt) : List String :=
  ss.flatMap fun s => declared s ++ s.blocks.flatMap declaredIn

/-- A name that is made between two counts. -/
def MadeBetween (ν ν' : Fresh) (n : String) : Prop :=
  (∃ i, ν.results ≤ i ∧ i < ν'.results ∧ n = "$t" ++ toString i) ∨
    ∃ i, ν.functions ≤ i ∧ i < ν'.functions ∧ n = "$f" ++ toString i

/-- Names are made between two counts, each once. -/
structure Makes (ν : Fresh) (names : List String) (ν' : Fresh) : Prop where
  results : ν.results ≤ ν'.results
  functions : ν.functions ≤ ν'.functions
  nodup : names.Nodup
  made : ∀ n ∈ names, MadeBetween ν ν' n

theorem append_toString_inj {front : String} {i j : Nat}
    (h : front ++ toString i = front ++ toString j) : i = j :=
  Nat.repr_inj.mp ((String.append_right_inj front).mp h)

theorem result_ne_function {i j : Nat} : "$t" ++ toString i ≠ "$f" ++ toString j := by
  intro h
  have hchars := congrArg String.toList h
  simp at hchars

namespace Makes

variable {ν ν₁ ν' : Fresh} {names names' : List String}

theorem nil (ν : Fresh) : Makes ν [] ν :=
  ⟨Nat.le_refl _, Nat.le_refl _, List.nodup_nil, List.forall_mem_nil _⟩

theorem perm (h : Makes ν names ν') (hnames : names.Perm names') : Makes ν names' ν' :=
  ⟨h.results, h.functions, hnames.nodup_iff.mp h.nodup,
    fun n hn => h.made n (hnames.mem_iff.mpr hn)⟩

/-- What is made later is something else. -/
theorem append (h : Makes ν names ν₁) (h' : Makes ν₁ names' ν') : Makes ν (names ++ names') ν' := by
  have hdisjoint : names.Disjoint names' := by
    intro n hn hn'
    rcases h.made n hn with ⟨i, -, hi, rfl⟩ | ⟨i, -, hi, rfl⟩ <;>
      rcases h'.made _ hn' with ⟨j, hj, -, heq⟩ | ⟨j, hj, -, heq⟩
    · exact absurd (append_toString_inj heq ▸ hi) (Nat.not_lt.mpr hj)
    · exact result_ne_function heq
    · exact result_ne_function heq.symm
    · exact absurd (append_toString_inj heq ▸ hi) (Nat.not_lt.mpr hj)
  refine ⟨h.results.trans h'.results, h.functions.trans h'.functions,
    h.nodup.append h'.nodup hdisjoint, fun n hn => ?_⟩
  rcases List.mem_append.mp hn with hn | hn
  · exact (h.made n hn).imp
      (fun ⟨i, hfrom, hto, hname⟩ => ⟨i, hfrom, hto.trans_le h'.results, hname⟩)
      fun ⟨i, hfrom, hto, hname⟩ => ⟨i, hfrom, hto.trans_le h'.functions, hname⟩
  · exact (h'.made n hn).imp
      (fun ⟨i, hfrom, hto, hname⟩ => ⟨i, h.results.trans hfrom, hto, hname⟩)
      fun ⟨i, hfrom, hto, hname⟩ => ⟨i, h.functions.trans hfrom, hto, hname⟩

end Makes

/-! ## Steps of lifting -/

/-- What a step gives, with the count behind it, if it does not refuse. -/
def YieldsFrom {α : Type} (m : Lifting α) (ν : Fresh) (q : α → Fresh → Prop) : Prop :=
  ∀ a ν', m.run ν = .ok (a, ν') → q a ν'

namespace YieldsFrom

variable {α β : Type} {m : Lifting α} {ν : Fresh} {q : α → Fresh → Prop} {r : β → Fresh → Prop}

theorem bind {f : α → Lifting β} (h : YieldsFrom m ν q)
    (hf : ∀ a ν₁, q a ν₁ → YieldsFrom (f a) ν₁ r) : YieldsFrom (m >>= f) ν r := by
  intro b ν' hrun
  obtain ⟨a, ν₁, hm, hfa⟩ := run_bind_eq_ok_iff.mp hrun
  exact hf a ν₁ (h a ν₁ hm) b ν' hfa

theorem pure {a : α} (h : q a ν) : YieldsFrom (pure a) ν q := by
  intro b ν' hrun
  obtain ⟨rfl, rfl⟩ := Prod.mk.inj (run_pure_eq_ok_iff.mp hrun)
  exact h

theorem refuse {e : ParseError} : YieldsFrom (refuse e) ν q :=
  fun _ _ hrun => absurd hrun run_throw_ne_ok

theorem checkName (pos : Position) (n : String) :
    YieldsFrom (checkName pos n) ν fun _ ν' => ν' = ν ∧ isReserved n = false := by
  unfold NormalForm.checkName
  split
  · exact refuse
  · rename_i hn
    exact pure ⟨rfl, by simpa using hn⟩

theorem checkNames (pos : Position) (ns : List String) :
    YieldsFrom (ns.forM (NormalForm.checkName pos)) ν fun _ ν' =>
      ν' = ν ∧ ∀ n ∈ ns, isReserved n = false := by
  induction ns with
  | nil => exact pure ⟨rfl, List.forall_mem_nil _⟩
  | cons n ns ih =>
      refine (checkName pos n).bind ?_
      rintro _ _ ⟨rfl, hn⟩ _ _ hrun
      obtain ⟨rfl, hns⟩ := ih _ _ hrun
      exact ⟨rfl, List.forall_mem_cons.mpr ⟨hn, hns⟩⟩

theorem checkNamesIn (e : Expr) : YieldsFrom (NormalForm.checkNames e) ν fun _ ν' => ν' = ν := by
  unfold NormalForm.checkNames
  split
  · exact refuse
  · exact pure rfl

theorem isReserved_of_head? {n : String} (h : n.toList.head? = some '$') :
    isReserved n = true := by
  rw [isReserved, String.startsWith_string_iff]
  obtain ⟨rest, hn⟩ := List.head?_eq_some_iff.mp h
  exact ⟨rest, hn.symm⟩

theorem freshResult : YieldsFrom freshResult ν fun n ν' =>
    isReserved n = true ∧ Makes ν [n] ν' := by
  intro n ν' hrun
  cases hrun
  refine ⟨?_, Nat.le_succ _, Nat.le_refl _, List.nodup_singleton _, ?_⟩
  · exact isReserved_of_head? (by simp)
  · exact List.forall_mem_singleton.mpr (.inl ⟨ν.results, Nat.le_refl _, Nat.lt_succ_self _, rfl⟩)

theorem freshFunction : YieldsFrom freshFunction ν fun n ν' =>
    isReserved n = true ∧ Makes ν [n] ν' := by
  intro n ν' hrun
  cases hrun
  refine ⟨?_, Nat.le_refl _, Nat.le_succ _, List.nodup_singleton _, ?_⟩
  · exact isReserved_of_head? (by simp)
  · exact List.forall_mem_singleton.mpr (.inr ⟨ν.functions, Nat.le_refl _, Nat.lt_succ_self _, rfl⟩)

end YieldsFrom

/-! ## What a step tells -/

/-- What statements in front of another bind, and those are made of, `rest` being the lists of
statements in what is left of an expression. -/
structure Told (names moved : List String) (blocks : List (List Stmt)) (ν : Fresh)
    (front : List Stmt) (rest : List (List Stmt)) (ν' : Fresh) : Prop where
  plain : ∀ n ∈ names, isReserved n = false
  moved : (declaredIn front).filter (!isReserved ·) = moved
  blocks : List.Forall₂ BindsAs blocks (Stmt.blocksIn front ++ rest)
  makes : Makes ν ((declaredThroughout front ++ rest.flatMap declaredIn).filter isReserved) ν'

theorem blocksIn_append (ss ts : List Stmt) :
    Stmt.blocksIn (ss ++ ts) = Stmt.blocksIn ss ++ Stmt.blocksIn ts := by
  induction ss with
  | nil => rfl
  | cons s ss ih => rw [List.cons_append, Stmt.blocksIn, Stmt.blocksIn, ih, List.append_assoc]

theorem blocksIn_singleton (s : Stmt) : Stmt.blocksIn [s] = s.blocks := by
  rw [Stmt.blocksIn, Stmt.blocksIn, List.append_nil]

theorem declaredThroughout_append (ss ts : List Stmt) :
    declaredThroughout (ss ++ ts) = declaredThroughout ss ++ declaredThroughout ts :=
  List.flatMap_append

theorem declaredThroughout_perm (ss : List Stmt) :
    (declaredThroughout ss).Perm (declaredIn ss ++ (Stmt.blocksIn ss).flatMap declaredIn) := by
  induction ss with
  | nil => exact .refl _
  | cons s ss ih =>
      rw [declaredThroughout, List.flatMap_cons, declaredIn, List.flatMap_cons, Stmt.blocksIn,
        List.flatMap_append]
      refine ((List.Perm.refl _).append ih).trans ?_
      rw [List.append_assoc, List.append_assoc]
      refine (List.Perm.refl _).append ?_
      rw [← List.append_assoc, ← List.append_assoc]
      exact List.perm_append_comm.append (.refl _)

namespace Told

variable {names names' moved moved' : List String} {blocks blocks' rest : List (List Stmt)}
  {ν ν₁ ν' : Fresh} {front more : List Stmt}

theorem nil (ν : Fresh) : Told [] [] [] ν [] [] ν :=
  ⟨List.forall_mem_nil _, rfl, .nil, .nil ν⟩

theorem append (h : Told names moved blocks ν front [] ν₁)
    (h' : Told names' moved' blocks' ν₁ more [] ν') :
    Told (names ++ names') (moved ++ moved') (blocks ++ blocks') ν (front ++ more) [] ν' where
  plain := List.forall_mem_append.mpr ⟨h.plain, h'.plain⟩
  moved := by rw [declaredIn, List.flatMap_append, List.filter_append, ← h.moved, ← h'.moved]; rfl
  blocks := by
    have hblocks := List.rel_append h.blocks h'.blocks
    simpa [blocksIn_append] using hblocks
  makes := by
    have hmakes := h.makes.append h'.makes
    simpa [declaredThroughout_append] using hmakes

/-- More names have been looked at. -/
theorem checked {ns : List String} (h : Told names moved blocks ν front rest ν')
    (hns : ∀ n ∈ ns, isReserved n = false) : Told (ns ++ names) moved blocks ν front rest ν' :=
  ⟨List.forall_mem_append.mpr ⟨hns, h.plain⟩, h.moved, h.blocks, h.makes⟩

/-- A statement stands behind what has been moved out of it. -/
theorem behind {s : Stmt} (h : Told names moved blocks ν front rest ν')
    (hs : ∀ n ∈ declared s, isReserved n = false) (hblocks : s.blocks = rest) :
    Told names (moved ++ declared s) blocks ν (front ++ [s]) [] ν' where
  plain := h.plain
  moved := by
    have hkept : (declared s).filter (!isReserved ·) = declared s :=
      List.filter_eq_self.mpr fun n hn => by rw [hs n hn]; rfl
    rw [declaredIn, List.flatMap_append, List.filter_append, ← h.moved, List.flatMap_singleton,
      hkept]
    rfl
  blocks := by
    rw [blocksIn_append, blocksIn_singleton, hblocks, List.append_nil]
    exact h.blocks
  makes := by
    have hnone : (declared s).filter isReserved = [] :=
      List.filter_eq_nil_iff.mpr fun n hn => by simp [hs n hn]
    have hmakes := h.makes
    simpa [declaredThroughout_append, declaredThroughout, hblocks, hnone] using hmakes

/-- A statement that declares nothing. -/
theorem behind_plain {s : Stmt} (h : Told names moved blocks ν front rest ν')
    (hs : declared s = []) (hblocks : s.blocks = rest) :
    Told names moved blocks ν (front ++ [s]) [] ν' := by
  have hbehind := h.behind (s := s) (by simp [hs]) hblocks
  rwa [hs, List.append_nil] at hbehind

/-- A list of statements in the statement that is looked at. -/
theorem block {body body' : List Stmt} (h : Told names moved blocks ν front rest ν₁)
    (h' : Told names' (body.flatMap Stmt.bindings) (Stmt.blocksIn body) ν₁ body' [] ν') :
    Told (names ++ names') moved (blocks ++ body :: Stmt.blocksIn body) ν front
      (rest ++ body' :: Stmt.blocksIn body') ν' where
  plain := List.forall_mem_append.mpr ⟨h.plain, h'.plain⟩
  moved := h.moved
  blocks := by
    have hblocks := h'.blocks
    rw [List.append_nil] at hblocks
    rw [← List.append_assoc]
    exact List.rel_append h.blocks (.cons h'.moved hblocks)
  makes := by
    refine (h.makes.append h'.makes).perm ?_
    rw [List.flatMap_nil, List.append_nil, ← List.filter_append, List.flatMap_append,
      List.flatMap_cons, ← List.append_assoc]
    exact ((List.Perm.refl _).append (declaredThroughout_perm body')).filter _

/-- A generated name takes the result of a call. -/
theorem result {pos : Position} {name : String} {call : Expr}
    (h : Told names moved blocks ν front [] ν₁) (hname : isReserved name = true)
    (hcall : call.blocks = []) (hmakes : Makes ν₁ [name] ν') :
    Told names moved blocks ν (front ++ [NormalForm.bind pos name call]) [] ν' where
  plain := h.plain
  moved := by
    rw [declaredIn, List.flatMap_append, List.filter_append, ← h.moved]
    simp [NormalForm.bind, declared, Pattern.names, hname, declaredIn]
  blocks := by
    have hblocks := h.blocks
    simpa [blocksIn_append, blocksIn_singleton, NormalForm.bind, Stmt.blocks,
      Stmt.blocksDeclarators, hcall] using hblocks
  makes := by
    have hboth := h.makes.append hmakes
    simpa [declaredThroughout_append, declaredThroughout, NormalForm.bind, declared, Pattern.names,
      Stmt.blocks, Stmt.blocksDeclarators, hcall, hname] using hboth

end Told

theorem inner_ne_bound (place : Place) {e : Expr} : place.inner = .bound → e.isFunction = false := by
  cases place <;> nofun

theorem right_ne_bound (place : Place) (op : BinaryOp) {e : Expr} :
    place.right op = .bound → e.isFunction = false := by
  unfold Place.right
  split
  · nofun
  · exact inner_ne_bound place

/-- What lifting an expression tells.  What is left of it has no statements in it. -/
structure LiftTold (e : Expr) (ν : Fresh) (r : Lifted) (ν' : Fresh) : Prop where
  told : Told e.names e.selfNames e.blocks ν r.1 [] ν'
  none : r.2.blocks = []

theorem told_placeCall {place : Place} {pos : Position} {names moved : List String}
    {blocks : List (List Stmt)} {ν ν₁ : Fresh} {front : List Stmt} {callee : Expr}
    {args : List Expr} (h : Told names moved blocks ν front [] ν₁)
    (hnone : (Expr.call pos callee args).blocks = []) :
    YieldsFrom (placeCall place pos front (.call pos callee args)) ν₁ fun r ν' =>
      Told names moved blocks ν r.1 [] ν' ∧ r.2.blocks = [] := by
  cases place with
  | bound => exact .pure ⟨h, hnone⟩
  | free =>
      refine YieldsFrom.freshResult.bind ?_
      rintro name ν' ⟨hname, hmakes⟩
      exact .pure ⟨h.result hname hnone hmakes, rfl⟩
  | guarded => exact .refuse

/-- The name of a function that is moved is its own, or it is made. -/
theorem told_functionName (pos : Position) (self : Option String) (ν : Fresh) :
    YieldsFrom (functionName pos self) ν fun name ν₁ =>
      (∀ n ∈ self.toList, isReserved n = false) ∧
        [name].filter (!isReserved ·) = self.toList ∧ Makes ν ([name].filter isReserved) ν₁ := by
  cases self with
  | none =>
      rintro name ν₁ hrun
      obtain ⟨hname, hmakes⟩ := YieldsFrom.freshFunction name ν₁ hrun
      refine ⟨List.forall_mem_nil _, ?_, ?_⟩
      · simp [hname]
      · simpa [hname] using hmakes
  | some name =>
      refine (YieldsFrom.checkName pos name).bind ?_
      rintro _ _ ⟨rfl, hname⟩
      refine .pure ⟨List.forall_mem_singleton.mpr hname, ?_, ?_⟩
      · simp [hname]
      · simpa [hname] using Makes.nil _

theorem blocks_spellOut {pos : Position} {op : AssignOp} {target value : Expr}
    (htarget : target.blocks = []) (hvalue : value.blocks = []) :
    (spellOut pos op target value).blocks = [] := by
  unfold spellOut
  split
  · rw [Expr.blocks, htarget, hvalue, List.nil_append]
  · exact hvalue

/-- A function is declared under a name of the program or under a generated one. -/
theorem told_function (pos : Position) {name : String} (params : List String)
    {names moved : List String} {body body' : List Stmt} {ν ν₁ ν' : Fresh} (hname : [name].filter (!isReserved ·) = moved)
    (hmakes : Makes ν ([name].filter isReserved) ν₁)
    (h : Told names (body.flatMap Stmt.bindings) (Stmt.blocksIn body) ν₁ body' [] ν') :
    Told names moved (body :: Stmt.blocksIn body) ν [.function pos name params body'] [] ν' where
  plain := h.plain
  moved := hname
  blocks := by
    have hblocks := h.blocks
    rw [List.append_nil] at hblocks ⊢
    rw [blocksIn_singleton]
    exact .cons h.moved hblocks
  makes := by
    refine (hmakes.append h.makes).perm ?_
    simp only [declaredThroughout, List.flatMap_nil, List.append_nil, List.flatMap_singleton]
    rw [← List.filter_append]
    exact ((List.Perm.refl _).append (declaredThroughout_perm body')).filter _

theorem blocks_declare (pos : Position) (kind : DeclKind) (target : Pattern) (e : Expr) :
    (Stmt.declare pos kind [(target, some e)]).blocks = e.blocks := by
  rw [Stmt.blocks, Stmt.blocksDeclarators, Stmt.blocksDeclarators, List.append_nil]

/-- A declarator stands in a declaration of its own, behind what has been moved out of its value. -/
theorem told_declare {pos : Position} {kind : DeclKind} {target : Pattern} {e' : Option Expr}
    {names names' moved moved' : List String} {blocks blocks' : List (List Stmt)}
    {front more : List Stmt} {ν ν₁ ν' : Fresh} (htarget : ∀ n ∈ target.names, isReserved n = false)
    (h : Told names moved blocks ν front (Stmt.declare pos kind [(target, e')]).blocks ν₁)
    (h' : Told names' moved' blocks' ν₁ more [] ν') :
    Told (target.names ++ (names ++ names')) ((moved ++ target.names) ++ moved') (blocks ++ blocks')
      ν (front ++ .declare pos kind [(target, e')] :: more) [] ν' := by
  have hdeclared : declared (.declare pos kind [(target, e')]) = target.names := by
    simp [declared]
  have htold := (h.behind (hdeclared.symm ▸ htarget) rfl).append h'
  rw [hdeclared, ← List.append_cons] at htold
  exact htold.checked htarget

mutual

theorem told_lift (place : Place) : (e : Expr) → (place = .bound → e.isFunction = false) →
    (ν : Fresh) → YieldsFrom (lift place e) ν (LiftTold e ν)
  | .call pos callee args, _, ν => by
      have hparts : YieldsFrom (do
          let (front, callee) ← lift .free callee
          let (more, args) ← liftList .free args
          placeCall place pos (front ++ more) (.call pos callee args)) ν
          (LiftTold (.call pos callee args) ν) := by
        refine (told_lift .free callee nofun ν).bind fun (front, callee') ν₁ hcallee => ?_
        refine (told_liftList .free args nofun ν₁).bind fun (more, args') ν₂ ⟨hargs, hnone⟩ => ?_
        intro r ν' hrun
        obtain ⟨htold, hrest⟩ := told_placeCall (hcallee.told.append hargs)
          (List.append_eq_nil_iff.mpr ⟨hcallee.none, hnone⟩) r ν' hrun
        exact ⟨htold, hrest⟩
      cases place with
      | guarded => exact .refuse
      | bound | free => exact hparts
  | .function pos self params body, hplace, ν => by
      have hdeclared : YieldsFrom (do
          let name ← functionName pos self
          params.forM (checkName pos)
          let body ← stmts body
          return ([.function pos name params body], .name pos name)) ν
          (LiftTold (.function pos self params body) ν) := by
        refine (told_functionName pos self ν).bind ?_
        rintro name ν₁ ⟨hself, hname, hmakes⟩
        refine (YieldsFrom.checkNames pos params).bind ?_
        rintro _ _ ⟨rfl, hparams⟩
        refine (told_stmts body _).bind fun body' ν' hbody => .pure ⟨?_, rfl⟩
        exact ((told_function pos params hname hmakes hbody).checked hparams).checked hself
      cases place with
      | bound => cases hplace rfl
      | free | guarded => exact hdeclared
  | .name pos n, _, ν => by
      refine (YieldsFrom.checkName pos n).bind ?_
      rintro _ _ ⟨rfl, hn⟩
      exact .pure ⟨(Told.nil _).checked (List.forall_mem_singleton.mpr hn), rfl⟩
  | .binary pos op left right, _, ν => by
      refine (told_lift place.inner left (inner_ne_bound place) ν).bind
        fun (front, left') ν₁ hleft => ?_
      refine (told_lift (place.right op) right (right_ne_bound place op) ν₁).bind
        fun (more, right') ν₂ hright => ?_
      exact .pure ⟨hleft.told.append hright.told,
        List.append_eq_nil_iff.mpr ⟨hleft.none, hright.none⟩⟩
  | .unary pos op operand, _, ν =>
      (told_lift place.inner operand (inner_ne_bound place) ν).bind fun _ _ h =>
        .pure ⟨h.told, h.none⟩
  | .member pos base property, _, ν =>
      (told_lift place.inner base (inner_ne_bound place) ν).bind fun _ _ h =>
        .pure ⟨h.told, h.none⟩
  | .index pos base key, _, ν => by
      refine (told_lift place.inner base (inner_ne_bound place) ν).bind
        fun (front, base') ν₁ hbase => ?_
      refine (told_lift place.inner key (inner_ne_bound place) ν₁).bind
        fun (more, key') ν₂ hkey => ?_
      exact .pure ⟨hbase.told.append hkey.told, List.append_eq_nil_iff.mpr ⟨hbase.none, hkey.none⟩⟩
  | .array pos items, _, ν =>
      (told_liftList place.inner items (fun _ => inner_ne_bound place) ν).bind fun _ _ ⟨htold, hnone⟩ =>
        .pure ⟨htold, hnone⟩
  | .object pos entries, _, ν =>
      (told_liftEntries place.inner entries (fun _ => inner_ne_bound place) ν).bind fun _ _ ⟨htold, hnone⟩ =>
        .pure ⟨htold, hnone⟩
  | .assign .., _, _ => .refuse
  | .update .., _, _ => .refuse
  | .number .., _, ν | .string .., _, ν | .boolean .., _, ν | .null _, _, ν =>
      .pure ⟨.nil ν, rfl⟩

theorem told_liftList (place : Place) : (es : List Expr) →
    (∀ e : Expr, place = .bound → e.isFunction = false) → (ν : Fresh) → YieldsFrom (liftList place es) ν fun r ν' =>
      Told (Expr.namesList es) (Expr.selfNamesList es) (Expr.blocksList es) ν r.1 [] ν' ∧
        Expr.blocksList r.2 = []
  | [], _, ν => .pure ⟨.nil ν, rfl⟩
  | e :: es, hplace, ν => by
      refine (told_lift place e (hplace e) ν).bind fun (front, e') ν₁ he => ?_
      refine (told_liftList place es hplace ν₁).bind fun (more, es') ν₂ ⟨hes, hnone⟩ => ?_
      exact .pure ⟨he.told.append hes, List.append_eq_nil_iff.mpr ⟨he.none, hnone⟩⟩

theorem told_liftEntries (place : Place) : (es : List (String × Expr)) →
    (∀ e : Expr, place = .bound → e.isFunction = false) →
    (ν : Fresh) → YieldsFrom (liftEntries place es) ν fun r ν' =>
      Told (Expr.namesEntries es) (Expr.selfNamesEntries es) (Expr.blocksEntries es) ν r.1 [] ν' ∧
        Expr.blocksEntries r.2 = []
  | [], _, ν => .pure ⟨.nil ν, rfl⟩
  | (key, e) :: es, hplace, ν => by
      refine (told_lift place e (hplace e) ν).bind fun (front, e') ν₁ he => ?_
      refine (told_liftEntries place es hplace ν₁).bind fun (more, es') ν₂ ⟨hes, hnone⟩ => ?_
      exact .pure ⟨he.told.append hes, List.append_eq_nil_iff.mpr ⟨he.none, hnone⟩⟩

theorem told_stmt : (s : Stmt) → (ν : Fresh) → YieldsFrom (stmt s) ν fun out ν' =>
    Told s.names s.bindings s.blocks ν out [] ν'
  | .declare pos kind ds, ν => told_declarators pos kind ds ν
  | .function pos name params body, ν => by
      refine (YieldsFrom.checkName pos name).bind ?_
      rintro _ _ ⟨rfl, hname⟩
      refine (YieldsFrom.checkNames pos params).bind ?_
      rintro _ _ ⟨rfl, hparams⟩
      refine (told_stmts body _).bind fun body' ν' hbody => .pure ?_
      have hkept : [name].filter (!isReserved ·) = [name] := by simp [hname]
      have hmade (μ : Fresh) : Makes μ ([name].filter isReserved) μ := by
        simpa [hname] using Makes.nil μ
      have htold := told_function pos params hkept (hmade _) hbody
      exact (htold.checked hparams).checked (List.forall_mem_singleton.mpr hname)
  | .ifElse pos test consequent none, ν => by
      refine (told_lift .free test nofun ν).bind fun (front, test') ν₁ htest => ?_
      refine (told_stmts consequent ν₁).bind fun yes ν₂ hyes => .pure ?_
      refine (htest.told.block hyes).behind_plain rfl ?_
      rw [Stmt.blocks, htest.none]
  | .ifElse pos test consequent (some alternate), ν => by
      refine (told_lift .free test nofun ν).bind fun (front, test') ν₁ htest => ?_
      refine (told_stmts consequent ν₁).bind fun yes ν₂ hyes => ?_
      refine (told_stmts alternate ν₂).bind fun no ν₃ hno => .pure ?_
      have hblocks := ((htest.told.block hyes).block hno).behind_plain
        (s := .ifElse pos test' yes (some no)) rfl (by rw [Stmt.blocks, htest.none]; rfl)
      rw [List.append_assoc, List.append_assoc] at hblocks
      exact hblocks
  | .whileDo pos test body, ν => by
      refine (told_lift (.guarded .callInLoopTest) test nofun ν).bind fun (front, test') ν₁ htest => ?_
      refine (told_stmts body ν₁).bind fun body' ν₂ hbody => .pure ?_
      refine (htest.told.block hbody).behind_plain rfl ?_
      rw [Stmt.blocks, htest.none]
  | .labeled pos label body, ν | .block pos body, ν =>
      (told_stmts body ν).bind fun _ _ hbody =>
        .pure (((Told.nil ν).block hbody).behind_plain rfl rfl)
  | .breakTo .., ν | .returnWith _ none, ν => .pure ((Told.nil ν).behind_plain rfl rfl)
  | .returnWith pos (some value), ν =>
      (told_lift .free value nofun ν).bind fun _ _ hvalue =>
        .pure (hvalue.told.behind_plain rfl hvalue.none)
  | .expr _ (.call pos callee args), ν => by
      refine (told_lift .free callee nofun ν).bind fun (front, callee') ν₁ hcallee => ?_
      refine (told_liftList .free args nofun ν₁).bind fun (more, args') ν₂ ⟨hargs, hnone⟩ => ?_
      refine YieldsFrom.freshResult.bind ?_
      rintro name ν' ⟨hname, hmakes⟩
      exact .pure ((hcallee.told.append hargs).result hname
        (List.append_eq_nil_iff.mpr ⟨hcallee.none, hnone⟩) hmakes)
  | .expr _ (.assign pos op target value), ν => by
      refine (told_lift (.guarded .callInAssignTarget) target nofun ν).bind
        fun (front, target') ν₁ htarget => ?_
      have hassign : YieldsFrom (do
          let (more, value) ← lift .free value
          return front ++ more ++ [.expr pos (.assign pos .assign target'
            (spellOut pos op target' value))]) ν₁ fun out ν' =>
          Told (Stmt.expr pos (.assign pos op target value)).names
            (Stmt.expr pos (.assign pos op target value)).bindings
            (Stmt.expr pos (.assign pos op target value)).blocks ν out [] ν' := by
        refine (told_lift .free value nofun ν₁).bind fun (more, value') ν₂ hvalue => .pure ?_
        refine (htarget.told.append hvalue.told).behind_plain rfl ?_
        rw [Stmt.blocks, Expr.blocks, htarget.none, blocks_spellOut htarget.none hvalue.none]
        rfl
      dsimp only
      split
      · refine (YieldsFrom.checkNamesIn target').bind ?_
        rintro _ _ rfl
        exact hassign
      · exact hassign
  | .expr _ (.update pos op isPrefix target), ν =>
      (told_lift (.guarded .callInUpdateTarget) target nofun ν).bind fun _ _ htarget =>
        .pure (htarget.told.behind_plain rfl htarget.none)
  | .expr _ (.name ..), ν | .expr _ (.number ..), ν | .expr _ (.string ..), ν
  | .expr _ (.boolean ..), ν | .expr _ (.null _), ν | .expr _ (.array ..), ν
  | .expr _ (.object ..), ν | .expr _ (.function ..), ν | .expr _ (.member ..), ν
  | .expr _ (.index ..), ν | .expr _ (.unary ..), ν | .expr _ (.binary ..), ν =>
      (told_lift .free _ nofun ν).bind fun _ _ he => .pure (he.told.behind_plain rfl he.none)

theorem told_declarators (pos : Position) (kind : DeclKind) :
    (ds : List (Pattern × Option Expr)) → (ν : Fresh) →
      YieldsFrom (declarators pos kind ds) ν fun out ν' =>
        Told (Stmt.namesDeclarators ds) (ds.flatMap bindingsOf) (Stmt.blocksDeclarators ds) ν out
          [] ν'
  | [], ν => .pure (.nil ν)
  | (target, none) :: ds, ν => by
      refine (YieldsFrom.checkNames pos target.names).bind ?_
      rintro _ _ ⟨rfl, htarget⟩
      refine (told_declarators pos kind ds _).bind fun rest ν₁ hrest => .pure ?_
      have hnone (ν : Fresh) :
          Told [] [] [] ν [] (Stmt.declare pos kind [(target, none)]).blocks ν := .nil ν
      exact told_declare htarget (hnone _) hrest
  | (target, some (.function fpos self params body)) :: ds, ν => by
      have hvalue (ν : Fresh) : YieldsFrom (lift .bound (.function fpos self params body)) ν
          fun r ν' => Told (params ++ Stmt.namesList body) [] (body :: Stmt.blocksIn body) ν r.1
            r.2.blocks ν' := by
        refine (YieldsFrom.checkNames fpos params).bind ?_
        rintro _ _ ⟨rfl, hparams⟩
        exact (told_stmts body _).bind fun _ _ hbody =>
          .pure (((Told.nil _).block hbody).checked hparams)
      refine (YieldsFrom.checkNames pos target.names).bind ?_
      rintro _ _ ⟨rfl, htarget⟩
      refine (hvalue _).bind fun (front, e') ν₁ he => ?_
      refine (told_declarators pos kind ds ν₁).bind fun rest ν₂ hrest => .pure ?_
      rw [← blocks_declare pos kind target] at he
      exact told_declare htarget he hrest
  | (target, some (.name ..)) :: ds, ν | (target, some (.number ..)) :: ds, ν
  | (target, some (.string ..)) :: ds, ν | (target, some (.boolean ..)) :: ds, ν
  | (target, some (.null _)) :: ds, ν | (target, some (.array ..)) :: ds, ν
  | (target, some (.object ..)) :: ds, ν | (target, some (.call ..)) :: ds, ν
  | (target, some (.member ..)) :: ds, ν | (target, some (.index ..)) :: ds, ν
  | (target, some (.unary ..)) :: ds, ν | (target, some (.binary ..)) :: ds, ν
  | (target, some (.assign ..)) :: ds, ν | (target, some (.update ..)) :: ds, ν => by
      refine (YieldsFrom.checkNames pos target.names).bind ?_
      rintro _ _ ⟨rfl, htarget⟩
      refine (told_lift .bound _ (fun _ => rfl) _).bind fun (front, e') ν₁ he => ?_
      refine (told_declarators pos kind ds ν₁).bind fun rest ν₂ hrest => .pure ?_
      refine told_declare htarget ?_ hrest
      rw [blocks_declare, he.none]
      exact he.told

theorem told_stmts : (ss : List Stmt) → (ν : Fresh) → YieldsFrom (stmts ss) ν fun out ν' =>
    Told (Stmt.namesList ss) (ss.flatMap Stmt.bindings) (Stmt.blocksIn ss) ν out [] ν'
  | [], ν => .pure (.nil ν)
  | s :: ss, ν => by
      refine (told_stmt s ν).bind fun out ν₁ hs => ?_
      refine (told_stmts ss ν₁).bind fun more ν₂ hss => ?_
      exact .pure (hs.append hss)

end

/-- Each list of statements of a program declares in the normal form what it did before, the
functions that are moved into it, and generated names, which are all distinct and not among the
names of the program. -/
theorem bindings_of_normalize {source p : Program} (h : normalize source = .ok p) :
    List.Forall₂ BindsAs (source :: Stmt.blocksIn source) (p :: Stmt.blocksIn p) ∧
      ((declaredThroughout p).filter isReserved).Nodup ∧
      ∀ n ∈ (declaredThroughout p).filter isReserved, n ∉ Stmt.namesList source ∧
        ∃ i : Nat, n = "$t" ++ toString i ∨ n = "$f" ++ toString i := by
  obtain ⟨ν, hrun⟩ := run'_eq_ok_iff.mp h
  have htold := told_stmts source Fresh.none p ν hrun
  have hblocks := htold.blocks
  have hmakes := htold.makes
  rw [List.append_nil] at hblocks
  rw [List.flatMap_nil, List.append_nil] at hmakes
  refine ⟨.cons htold.moved hblocks, hmakes.nodup, fun n hn => ⟨fun hsource => ?_, ?_⟩⟩
  · have hreserved := (List.mem_filter.mp hn).2
    rw [htold.plain n hsource] at hreserved
    cases hreserved
  · rcases hmakes.made n hn with ⟨i, -, -, hname⟩ | ⟨i, -, -, hname⟩
    · exact ⟨i, .inl hname⟩
    · exact ⟨i, .inr hname⟩

end TraceLoom.Script
