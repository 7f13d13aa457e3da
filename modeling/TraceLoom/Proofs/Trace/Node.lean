import Mathlib.Data.List.Basic
import TraceLoom.Trace.Merge

/-!
A uniform view of trace nodes: every node is a head together with the traces that stand in it.
Statements about all kinds of nodes are proved through this view, with one case for a node
instead of one for each kind.
-/

namespace TraceLoom

open Numeric
open Script (BinaryOp UnaryOp)

/-- What a node says apart from the traces that stand in it and from the parameters of a
callback.  Numbers count by their code, so both zeros are one number. -/
inductive Head where
  | hole
  | number (code : UInt64)
  | boolean (value : Bool)
  | string (value : String)
  | undefined
  | name (name : String)
  | captured (field : String)
  | property (field : String)
  | binary (op : BinaryOp)
  | unary (op : UnaryOp)
  | bind (name : String)
  | assignName (name : String)
  | assignCaptured (field : String)
  | assignIndex
  | block
  | ifElse
  | whileDo
  | callback (event : String)
  | label (name : String)
  | breakTo (name : String)
  | closure
  | object
  | array
  | index
  | methodCall (method : String)
  | primitive (event : String)
  deriving DecidableEq

/-- The traces that stand in a node: expressions, statement lists, and the fields of a record. -/
structure Parts where
  exps : List Trace
  bodies : List (List Trace)
  fields : Fields Trace

namespace Parts

/-- The expression at a place, a hole if there is none. -/
def exp (p : Parts) (i : Nat) : Trace :=
  p.exps.getD i .hole

/-- The statement list at a place, an empty one if there is none. -/
def body (p : Parts) (i : Nat) : List Trace :=
  p.bodies.getD i []

/-- Two families of parts with the same numbers of everything. -/
structure SameShape (p q : Parts) : Prop where
  exps : p.exps.length = q.exps.length
  bodies : p.bodies.length = q.bodies.length
  fields : p.fields.length = q.fields.length

end Parts

namespace Target

def exps : Target → List Trace
  | .name _ => []
  | .captured t _ => [t]
  | .index t i => [t, i]

end Target

namespace Trace

def head : Trace → Head
  | hole => .hole
  | number x => .number (Binary64.code x)
  | boolean b => .boolean b
  | string s => .string s
  | undefined => .undefined
  | name n => .name n
  | captured _ field => .captured field
  | property _ field => .property field
  | binary op _ _ => .binary op
  | unary op _ => .unary op
  | bind n _ => .bind n
  | assign (.name n) _ => .assignName n
  | assign (.captured _ field) _ => .assignCaptured field
  | assign (.index _ _) _ => .assignIndex
  | block _ => .block
  | ifElse _ _ _ => .ifElse
  | whileDo _ _ => .whileDo
  | callback event _ _ _ _ => .callback event
  | label n _ => .label n
  | breakTo n _ => .breakTo n
  | closure _ => .closure
  | object _ => .object
  | array _ => .array
  | index _ _ => .index
  | methodCall _ m _ => .methodCall m
  | primitive event _ => .primitive event

/-- The parameters of a callback. -/
def params : Trace → List String
  | callback _ _ params _ _ => params
  | _ => []

def parts : Trace → Parts
  | captured t _ => ⟨[t], [], []⟩
  | property t _ => ⟨[t], [], []⟩
  | binary _ l r => ⟨[l, r], [], []⟩
  | unary _ t => ⟨[t], [], []⟩
  | bind _ t => ⟨[t], [], []⟩
  | assign x t => ⟨x.exps ++ [t], [], []⟩
  | block b => ⟨[], [b], []⟩
  | ifElse c t e => ⟨[c], [t, e], []⟩
  | whileDo c b => ⟨[c], [b], []⟩
  | callback _ arg _ record b => ⟨[arg, record], [b], []⟩
  | label _ b => ⟨[], [b], []⟩
  | breakTo _ t => ⟨[t], [], []⟩
  | closure fs => ⟨[], [], fs⟩
  | object fs => ⟨[], [], fs⟩
  | array ts => ⟨ts, [], []⟩
  | index t i => ⟨[t, i], [], []⟩
  | methodCall t _ ts => ⟨t :: ts, [], []⟩
  | primitive _ ts => ⟨ts, [], []⟩
  | _ => ⟨[], [], []⟩

/-- The node with other traces standing in it. -/
def withParts (p : Parts) : Trace → Trace
  | captured _ field => captured (p.exp 0) field
  | property _ field => property (p.exp 0) field
  | binary op _ _ => binary op (p.exp 0) (p.exp 1)
  | unary op _ => unary op (p.exp 0)
  | bind n _ => bind n (p.exp 0)
  | assign (.name n) _ => assign (.name n) (p.exp 0)
  | assign (.captured _ field) _ => assign (.captured (p.exp 0) field) (p.exp 1)
  | assign (.index _ _) _ => assign (.index (p.exp 0) (p.exp 1)) (p.exp 2)
  | block _ => block (p.body 0)
  | ifElse _ _ _ => ifElse (p.exp 0) (p.body 0) (p.body 1)
  | whileDo _ _ => whileDo (p.exp 0) (p.body 0)
  | callback event _ params _ _ => callback event (p.exp 0) params (p.exp 1) (p.body 0)
  | label n _ => label n (p.body 0)
  | breakTo n _ => breakTo n (p.exp 0)
  | closure _ => closure p.fields
  | object _ => object p.fields
  | array _ => array p.exps
  | index _ _ => index (p.exp 0) (p.exp 1)
  | methodCall _ m _ => methodCall (p.exp 0) m p.exps.tail
  | primitive event _ => primitive event p.exps
  | t => t

@[simp] theorem head_withParts (p : Parts) (t : Trace) : (t.withParts p).head = t.head := by
  fun_cases head t <;> rfl

@[simp] theorem params_withParts (p : Parts) (t : Trace) :
    (t.withParts p).params = t.params := by
  fun_cases head t <;> rfl

@[simp] theorem withParts_parts (t : Trace) : t.withParts t.parts = t := by
  fun_cases head t <;> rfl

@[simp] theorem withParts_withParts (p q : Parts) (t : Trace) :
    (t.withParts p).withParts q = t.withParts q := by
  fun_cases head t <;> rfl

theorem parts_withParts {p : Parts} {t : Trace} (h : t.parts.SameShape p) :
    (t.withParts p).parts = p := by
  obtain ⟨exps, bodies, fields⟩ := p
  obtain ⟨hexps, hbodies, hfields⟩ := h
  replace hexps := hexps.symm
  replace hbodies := hbodies.symm
  fun_cases head t
  -- the nodes with any number of expressions
  case case23 | case26 => simp_all [parts, withParts, eq_comm]
  case case25 => cases exps <;> simp_all [parts, withParts, Parts.exp, eq_comm]
  all_goals
    simp only [parts, Target.exps, List.nil_append, List.cons_append, List.length_cons,
      List.length_nil, Nat.zero_add, Nat.reduceAdd, List.length_eq_zero_iff,
      List.length_eq_one_iff, List.length_eq_two, List.length_eq_three]
      at hexps hbodies hfields
    obtain ⟨_, _, _, rfl⟩ := hexps
    obtain ⟨_, _, rfl⟩ := hbodies
    simp_all [parts, withParts, Target.exps, Parts.exp, Parts.body, eq_comm]

/-! ## Nodes of one kind -/

/-- Two nodes made by the same constructor.  Facts about two nodes are proved kind by kind
through this relation; that nodes of different kinds have nothing in common is said once for
each function of two nodes. -/
inductive SameKind : Trace → Trace → Prop
  | hole : SameKind hole hole
  | number (x y : Float) : SameKind (number x) (number y)
  | boolean (a b : Bool) : SameKind (boolean a) (boolean b)
  | string (a b : String) : SameKind (string a) (string b)
  | undefined : SameKind undefined undefined
  | name (a b : String) : SameKind (name a) (name b)
  | captured (t u : Trace) (a b : String) : SameKind (captured t a) (captured u b)
  | property (t u : Trace) (a b : String) : SameKind (property t a) (property u b)
  | binary (op op' : BinaryOp) (l l' r r' : Trace) :
      SameKind (binary op l r) (binary op' l' r')
  | unary (op op' : UnaryOp) (t u : Trace) : SameKind (unary op t) (unary op' u)
  | bind (n n' : String) (t u : Trace) : SameKind (bind n t) (bind n' u)
  | assign (x y : Target) (t u : Trace) : SameKind (assign x t) (assign y u)
  | block (b b' : List Trace) : SameKind (block b) (block b')
  | ifElse (c c' : Trace) (t t' e e' : List Trace) :
      SameKind (ifElse c t e) (ifElse c' t' e')
  | whileDo (c c' : Trace) (b b' : List Trace) : SameKind (whileDo c b) (whileDo c' b')
  | callback (event event' : String) (arg arg' : Trace) (params params' : List String)
      (record record' : Trace) (b b' : List Trace) :
      SameKind (callback event arg params record b)
        (callback event' arg' params' record' b')
  | label (n n' : String) (b b' : List Trace) : SameKind (label n b) (label n' b')
  | breakTo (n n' : String) (t u : Trace) : SameKind (breakTo n t) (breakTo n' u)
  | closure (fs gs : Fields Trace) : SameKind (closure fs) (closure gs)
  | object (fs gs : Fields Trace) : SameKind (object fs) (object gs)
  | array (ts us : List Trace) : SameKind (array ts) (array us)
  | index (t u i j : Trace) : SameKind (index t i) (index u j)
  | methodCall (t u : Trace) (m m' : String) (ts us : List Trace) :
      SameKind (methodCall t m ts) (methodCall u m' us)
  | primitive (event event' : String) (ts us : List Trace) :
      SameKind (primitive event ts) (primitive event' us)

/-- The head of a node says by which constructor it was made. -/
theorem exists_of_head (u : Trace) :
    match u.head with
    | .hole => u = hole
    | .number _ => ∃ x, u = number x
    | .boolean b => u = boolean b
    | .string s => u = string s
    | .undefined => u = undefined
    | .name n => u = name n
    | .captured field => ∃ t, u = captured t field
    | .property field => ∃ t, u = property t field
    | .binary op => ∃ l r, u = binary op l r
    | .unary op => ∃ t, u = unary op t
    | .bind n => ∃ t, u = bind n t
    | .assignName n => ∃ t, u = assign (.name n) t
    | .assignCaptured field => ∃ record t, u = assign (.captured record field) t
    | .assignIndex => ∃ object i t, u = assign (.index object i) t
    | .block => ∃ b, u = block b
    | .ifElse => ∃ c t e, u = ifElse c t e
    | .whileDo => ∃ c b, u = whileDo c b
    | .callback event => ∃ arg params record b, u = callback event arg params record b
    | .label n => ∃ b, u = label n b
    | .breakTo n => ∃ t, u = breakTo n t
    | .closure => ∃ fs, u = closure fs
    | .object => ∃ fs, u = object fs
    | .array => ∃ ts, u = array ts
    | .index => ∃ t i, u = index t i
    | .methodCall m => ∃ t ts, u = methodCall t m ts
    | .primitive event => ∃ ts, u = primitive event ts := by
  fun_cases head u <;>
    first
    | rfl
    | exact ⟨_, rfl⟩
    | exact ⟨_, _, rfl⟩
    | exact ⟨_, _, _, rfl⟩
    | exact ⟨_, _, _, _, rfl⟩

theorem SameKind.of_head_eq {t u : Trace} (h : t.head = u.head) : SameKind t u := by
  have hu := exists_of_head u
  rw [← h] at hu
  fun_cases head t
  all_goals
    simp only [head] at hu
    obtain ⟨_, _, _, _, rfl⟩ := hu
    constructor

theorem SameKind.of_mergeIn {t u : Trace} (ht : t ≠ .hole) (hu : u ≠ .hole)
    (h : (mergeIn t u).mismatch = none) : SameKind t u := by
  fun_cases mergeIn t u
  all_goals simp only [mergeIn] at h
  all_goals first | constructor | simp_all [Merged.stopped]

@[simp] theorem head_eq_hole_iff {t : Trace} : t.head = .hole ↔ t = .hole := by
  constructor
  · intro h
    fun_cases head t <;> simp_all [head]
  · rintro rfl
    rfl

@[simp] theorem isHole_eq_true_iff {t : Trace} : t.isHole = true ↔ t = .hole := by
  cases t <;> simp [isHole]

@[simp] theorem isHole_eq_false_iff {t : Trace} : t.isHole = false ↔ t ≠ .hole := by
  cases t <;> simp [isHole]

/-! ## Induction -/

/-- The traces that stand directly in a node. -/
def children (t : Trace) : List Trace :=
  t.parts.exps ++ t.parts.bodies.flatten ++ t.parts.fields.map (·.2)

theorem mem_children_of_exps {s t : Trace} (h : s ∈ t.parts.exps) : s ∈ t.children := by
  simp [children, h]

theorem mem_children_of_bodies {s t : Trace} {b : List Trace} (hb : b ∈ t.parts.bodies)
    (hs : s ∈ b) : s ∈ t.children := by
  simp only [children, List.mem_append, List.mem_flatten]
  exact .inl (.inr ⟨b, hb, hs⟩)

theorem mem_children_of_fields {t : Trace} {f : String × Trace} (h : f ∈ t.parts.fields) :
    f.2 ∈ t.children := by
  simp only [children, List.mem_append, List.mem_map]
  exact .inr ⟨f, h, rfl⟩

theorem sizeOf_lt_of_mem_values {s : Trace} {fs : List (String × Trace)}
    (h : s ∈ fs.map (·.2)) : sizeOf s < sizeOf fs := by
  obtain ⟨⟨key, t⟩, hf, rfl⟩ := List.mem_map.mp h
  have hlt := List.sizeOf_lt_of_mem hf
  simp only [Prod.mk.sizeOf_spec] at hlt
  show sizeOf t < sizeOf fs
  omega

theorem sizeOf_lt_of_mem_children {s t : Trace} (h : s ∈ t.children) : sizeOf s < sizeOf t := by
  have hitems : ∀ ts : List Trace, s ∈ ts → sizeOf s < sizeOf ts :=
    fun _ => List.sizeOf_lt_of_mem
  have hvalues : ∀ fs : List (String × Trace), s ∈ fs.map (·.2) → sizeOf s < sizeOf fs :=
    fun _ => sizeOf_lt_of_mem_values
  fun_cases head t <;> simp [children, parts, Target.exps, -List.mem_map] at h ⊢ <;> grind

/-- What holds of a node whenever it holds of all traces in it, holds of all traces. -/
@[elab_as_elim]
theorem induction {motive : Trace → Prop}
    (node : ∀ t, (∀ s ∈ t.children, motive s) → motive t) (t : Trace) : motive t :=
  node t fun s hs =>
    have := sizeOf_lt_of_mem_children hs
    induction node s
termination_by sizeOf t

/-! ## What holds everywhere in a trace -/

mutual

/-- Whether every node of a trace passes a test. -/
def every (p : Trace → Bool) : Trace → Bool
  | captured t field => p (captured t field) && every p t
  | property t field => p (property t field) && every p t
  | binary op l r => p (binary op l r) && every p l && every p r
  | unary op t => p (unary op t) && every p t
  | bind n t => p (bind n t) && every p t
  | assign x t => p (assign x t) && everyTarget p x && every p t
  | block b => p (block b) && everyItem p b
  | ifElse c t e => p (ifElse c t e) && every p c && everyItem p t && everyItem p e
  | whileDo c b => p (whileDo c b) && every p c && everyItem p b
  | callback event arg params record b =>
      p (callback event arg params record b) && every p arg && every p record && everyItem p b
  | label n b => p (label n b) && everyItem p b
  | breakTo n t => p (breakTo n t) && every p t
  | closure fs => p (closure fs) && everyField p fs
  | object fs => p (object fs) && everyField p fs
  | array ts => p (array ts) && everyItem p ts
  | index t i => p (index t i) && every p t && every p i
  | methodCall t m ts => p (methodCall t m ts) && every p t && everyItem p ts
  | primitive event ts => p (primitive event ts) && everyItem p ts
  | t => p t

def everyTarget (p : Trace → Bool) : Target → Bool
  | .name _ => true
  | .captured t _ => every p t
  | .index t i => every p t && every p i

def everyItem (p : Trace → Bool) : List Trace → Bool
  | [] => true
  | t :: ts => every p t && everyItem p ts

def everyField (p : Trace → Bool) : List (String × Trace) → Bool
  | [] => true
  | (_, t) :: fs => every p t && everyField p fs

end

theorem everyItem_eq_true_iff {p : Trace → Bool} {ts : List Trace} :
    everyItem p ts = true ↔ ∀ t ∈ ts, every p t = true := by
  induction ts with
  | nil => simp [everyItem]
  | cons t ts ih => simp [everyItem, ih]

theorem everyField_eq_true_iff {p : Trace → Bool} {fs : List (String × Trace)} :
    everyField p fs = true ↔ ∀ t ∈ fs.map (·.2), every p t = true := by
  induction fs with
  | nil => simp [everyField]
  | cons f fs ih => simp [everyField, ih]

/-- A test passes everywhere if it passes at the node and everywhere in it. -/
theorem every_eq_true_iff {p : Trace → Bool} {t : Trace} :
    every p t = true ↔ p t = true ∧ ∀ s ∈ t.children, every p s = true := by
  fun_cases head t <;>
    simp [every, everyTarget, children, parts, Target.exps, everyItem_eq_true_iff,
      everyField_eq_true_iff, and_assoc, or_imp, forall_and]

end Trace

end TraceLoom
