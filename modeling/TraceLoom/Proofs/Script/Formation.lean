import TraceLoom.Proofs.Script.Legible
import TraceLoom.Proofs.Script.ProperPhrases

/-!
Whatever the parser reads is formed: what is written to can be written to, and declarations declare
something.
-/

namespace TraceLoom.Script

open TraceLoom.Script.Parser

/-- An expression that is formed throughout. -/
abbrev Expr.WellFormed (e : Expr) : Prop :=
  e.Throughout Expr.Formed Stmt.Formed

/-- A statement that is formed throughout. -/
abbrev Stmt.WellFormed (s : Stmt) : Prop :=
  s.Throughout Expr.Formed Stmt.Formed

/-- A program that is formed throughout. -/
abbrev Stmt.WellFormedList (ss : List Stmt) : Prop :=
  Stmt.ThroughoutList Expr.Formed Stmt.Formed ss

/-- A reading of something that has a property, unless it refuses something. -/
def Gives {α : Type} (p : α → Prop) (r : Reading α) : Prop :=
  ∀ x, r = .ok x → p x

namespace Gives

variable {α β γ : Type} {p : α → Prop} {q : β → Prop} {good : γ → Prop}

theorem ok {x : α} (h : p x) : Gives p (.ok x) := by
  rintro _ ⟨⟩
  exact h

theorem error {e : ParseError} : Gives p (.error e) :=
  nofun

theorem trivial (r : Reading α) : Gives (fun _ => True) r :=
  fun _ _ => True.intro

theorem map {r : Reading α} {f : α → β} (h : Gives p r) (hf : ∀ x, p x → q (f x)) :
    Gives q (r.map f) := by
  intro b hb
  obtain ⟨x, hx, rfl⟩ := reading_map_eq_ok hb
  exact hf x (h x hx)

theorem map_some {r : Reading α} {f : α → β} (h : Gives p r) (hf : ∀ x, p x → q (f x)) :
    Gives (fun s => ∀ t ∈ s, q t) (r.map fun x => some (f x)) :=
  h.map fun x hx _ ht => Option.some.inj ht ▸ hf x hx

theorem map₂ {r : Reading α} {r' : Reading β} {f : α → β → γ} (h : Gives p r) (h' : Gives q r')
    (hf : ∀ x y, p x → q y → good (f x y)) : Gives good (do return f (← r) (← r')) := by
  intro b hb
  obtain ⟨x, y, hx, hy, rfl⟩ := reading_map₂_eq_ok hb
  exact hf x y (h x hx) (h' y hy)

theorem all {rs : List (Reading α)} (h : ∀ r ∈ rs, Gives p r) :
    Gives (fun xs => ∀ x ∈ xs, p x) (all rs) := by
  induction rs with
  | nil => exact ok (List.forall_mem_nil _)
  | cons r rs ih =>
      obtain ⟨hr, hrs⟩ := List.forall_mem_cons.mp h
      intro xs hxs
      obtain ⟨x, ys, hx, hys, rfl⟩ := all_cons_eq_ok.mp hxs
      exact List.forall_mem_cons.mpr ⟨hr x hx, ih hrs ys hys⟩

end Gives

/-! ## Operators -/

theorem gives_update {pos : Position} {op : UpdateOp} {isPrefix : Bool} {target : Expr}
    (h : target.WellFormed) : Gives Expr.WellFormed (Parser.update pos op isPrefix target) := by
  unfold Parser.update
  split
  · rename_i htarget
    exact .ok ⟨htarget, h⟩
  · exact .error

theorem gives_applyPrefix {op : UpdateOp ⊕ UnaryOp} {pos : Position} {operand : Reading Expr}
    (h : Gives Expr.WellFormed operand) : Gives Expr.WellFormed (applyPrefix op pos operand) := by
  intro e he
  obtain ⟨x, hx, he⟩ := exists_of_bind he
  cases op with
  | inl op => exact gives_update (h x hx) e he
  | inr op =>
      cases he
      exact ⟨trivial, h x hx⟩

theorem gives_applyPostfix {target : Reading Expr} {op : UpdateOp}
    (h : Gives Expr.WellFormed target) : Gives Expr.WellFormed (applyPostfix target op) := by
  intro e he
  obtain ⟨x, hx, he⟩ := exists_of_bind he
  exact gives_update (h x hx) e he

theorem gives_assign {pos : Position} {op : AssignOp} {target value : Reading Expr}
    (htarget : Gives Expr.WellFormed target) (hvalue : Gives Expr.WellFormed value) :
    Gives Expr.WellFormed (Parser.assign pos op target value) := by
  intro e he
  obtain ⟨x, hx, he⟩ := exists_of_bind he
  split at he
  · rename_i hassignable
    obtain ⟨y, hy, he⟩ := exists_of_bind he
    cases he
    exact ⟨hassignable, htarget x hx, hvalue y hy⟩
  · cases he

theorem gives_binary {left right : Reading Expr} {op : BinaryOp}
    (hleft : Gives Expr.WellFormed left) (hright : Gives Expr.WellFormed right) :
    Gives Expr.WellFormed (Parser.binary left op right) :=
  hleft.map₂ hright fun _ _ hx hy => ⟨trivial, hx, hy⟩

theorem gives_reduce {least : Nat} {pending : Pending} {e : Reading Expr}
    (hpending : ∀ p ∈ pending, Gives Expr.WellFormed p.1) (he : Gives Expr.WellFormed e) :
    (∀ p ∈ (reduce least pending e).1, Gives Expr.WellFormed p.1) ∧
      Gives Expr.WellFormed (reduce least pending e).2 := by
  induction pending generalizing e with
  | nil => exact ⟨hpending, he⟩
  | cons p pending ih =>
      obtain ⟨hleft, hrest⟩ := List.forall_mem_cons.mp hpending
      unfold reduce
      split
      · exact ih hrest (gives_binary hleft he)
      · exact ⟨hpending, he⟩

theorem gives_combine {operands : List (BinaryOp × Reading Expr)} {pending : Pending}
    {e : Reading Expr} (hpending : ∀ p ∈ pending, Gives Expr.WellFormed p.1)
    (he : Gives Expr.WellFormed e) (hoperands : ∀ p ∈ operands, Gives Expr.WellFormed p.2) :
    Gives Expr.WellFormed (combine pending e operands) := by
  induction operands generalizing pending e with
  | nil => exact (gives_reduce hpending he).2
  | cons p operands ih =>
      obtain ⟨hright, hoperands⟩ := List.forall_mem_cons.mp hoperands
      obtain ⟨hpending, hleft⟩ := gives_reduce hpending he
      exact ih (List.forall_mem_cons.mpr ⟨hleft, hpending⟩) hright hoperands

theorem wellFormed_asBody {s : Option Stmt} (h : ∀ t ∈ s, t.WellFormed) :
    Stmt.WellFormedList (asBody s) := by
  cases s with
  | none => trivial
  | some s =>
      have hs := h s rfl
      cases s with
      | block pos body => exact hs.2
      | _ => exact ⟨hs, trivial⟩

/-! ## Phrases -/

/-- What is read with some fuel is formed. -/
structure ReadsFormed (fuel : Nat) : Prop where
  assignment {c c' : Cursor} {r : Reading Expr} (h : assignment fuel c = some (r, c')) :
    Gives Expr.WellFormed r
  conditional {pos : Position} {first r : Reading Expr} {c c' : Cursor}
    (hfirst : Gives Expr.WellFormed first) (h : conditional fuel pos first c = (r, c')) :
    Gives Expr.WellFormed r
  operations {c c' : Cursor} {ops : List (BinaryOp × Reading Expr)}
    (h : operations fuel c = (ops, c')) : ∀ p ∈ ops, Gives Expr.WellFormed p.2
  operand {c c' : Cursor} {r : Reading Expr} (h : operand fuel c = some (r, c')) :
    Gives Expr.WellFormed r
  postfixes {target r : Reading Expr} {c c' : Cursor} (htarget : Gives Expr.WellFormed target)
    (h : postfixes fuel target c = (r, c')) : Gives Expr.WellFormed r
  chain {c c' : Cursor} {r : Reading Expr} (h : chain fuel c = some (r, c')) :
    Gives Expr.WellFormed r
  suffixes {pos : Position} {head r : Reading Expr} {c c' : Cursor}
    (hhead : Gives Expr.WellFormed head) (h : suffixes fuel pos head c = (r, c')) :
    Gives Expr.WellFormed r
  suffix {pos : Position} {head r : Reading Expr} {c c' : Cursor}
    (hhead : Gives Expr.WellFormed head) (h : suffix fuel pos head c = some (r, c')) :
    Gives Expr.WellFormed r
  expressions {c c' : Cursor} {rs : List (Reading Expr)} (h : expressions fuel c = some (rs, c')) :
    ∀ r ∈ rs, Gives Expr.WellFormed r
  moreExpressions {c c' : Cursor} {rs : List (Reading Expr)}
    (h : moreExpressions fuel c = (rs, c')) : ∀ r ∈ rs, Gives Expr.WellFormed r
  primary {c c' : Cursor} {r : Reading Expr} (h : primary fuel c = some (r, c')) :
    Gives Expr.WellFormed r
  properties {c c' : Cursor} {rs : List (Reading (String × Expr))}
    (h : properties fuel c = some (rs, c')) : ∀ r ∈ rs, Gives (·.2.WellFormed) r
  moreProperties {c c' : Cursor} {rs : List (Reading (String × Expr))}
    (h : moreProperties fuel c = (rs, c')) : ∀ r ∈ rs, Gives (·.2.WellFormed) r
  property {c c' : Cursor} {r : Reading (String × Expr)} (h : property fuel c = some (r, c')) :
    Gives (·.2.WellFormed) r
  functionTail {pos : Position} {c c' : Cursor} {r : Reading (List String × List Stmt)}
    (h : functionTail fuel pos c = some (r, c')) : Gives (Stmt.WellFormedList ·.2) r
  block {c c' : Cursor} {r : Reading (List Stmt)} (h : block fuel c = some (r, c')) :
    Gives Stmt.WellFormedList r
  statements {c c' : Cursor} {r : Reading (List Stmt)} (h : statements fuel c = (r, c')) :
    Gives Stmt.WellFormedList r
  statement {c c' : Cursor} {r : Reading (Option Stmt)} (h : statement fuel c = some (r, c')) :
    Gives (fun s => ∀ t ∈ s, t.WellFormed) r
  special {c c' : Cursor} {r : Reading (Option Stmt)} (h : special fuel c = some (r, c')) :
    Gives (fun s => ∀ t ∈ s, t.WellFormed) r
  parenthesized {c c' : Cursor} {r : Reading Expr} (h : parenthesized fuel c = some (r, c')) :
    Gives Expr.WellFormed r
  declarator {c c' : Cursor} {r : Reading (Pattern × Option Expr)}
    (h : declarator fuel c = some (r, c')) : Gives (fun d => ∀ e ∈ d.2, e.WellFormed) r
  moreDeclarators {c c' : Cursor} {rs : List (Reading (Pattern × Option Expr))}
    (h : moreDeclarators fuel c = (rs, c')) : ∀ r ∈ rs, Gives (fun d => ∀ e ∈ d.2, e.WellFormed) r

namespace ReadsFormed

variable {fuel : Nat} {c c' : Cursor}

/-! ### Expressions -/

theorem assignment_succ (h : ReadsFormed fuel) {r : Reading Expr}
    (hread : Parser.assignment (fuel + 1) c = some (r, c')) : Gives Expr.WellFormed r := by
  unfold Parser.assignment at hread
  dsimp only at hread
  split at hread
  · obtain ⟨⟨first, c₁⟩, hfirst, heq⟩ := Option.map_eq_some_iff.mp hread
    exact h.conditional (h.operand hfirst) heq
  · split at hread
    · cases hread
    · rename_i target c₁ hchain
      split at hread
      · rename_i phrase hassigned
        cases hread
        obtain ⟨⟨op, c₂⟩, -, hassigned⟩ := Option.bind_eq_some_iff.mp hassigned
        obtain ⟨⟨value, c₃⟩, hvalue, heq⟩ := Option.bind_eq_some_iff.mp hassigned
        cases heq
        exact gives_assign (h.chain hchain) (h.assignment hvalue)
      · cases hpost : Parser.postfixes fuel target c₁ with
        | mk first c₂ =>
            rw [hpost] at hread
            exact h.conditional (h.postfixes (h.chain hchain) hpost) (Option.some.inj hread)

theorem conditional_succ (h : ReadsFormed fuel) {pos : Position} {first r : Reading Expr}
    (hfirst : Gives Expr.WellFormed first)
    (hread : Parser.conditional (fuel + 1) pos first c = (r, c')) : Gives Expr.WellFormed r := by
  unfold Parser.conditional at hread
  cases hops : Parser.operations fuel c with
  | mk operands c₁ =>
      rw [hops] at hread
      dsimp only at hread
      split at hread
      · -- a condition with two branches is refused, whatever its test
        cases hread
        intro e he
        cases htest : combine [] first operands with
        | error => rw [htest] at he; cases he
        | ok => rw [htest] at he; cases he
      · cases hread
        exact gives_combine (List.forall_mem_nil _) hfirst (h.operations hops)

theorem operations_succ (h : ReadsFormed fuel) {ops : List (BinaryOp × Reading Expr)}
    (hread : Parser.operations (fuel + 1) c = (ops, c')) :
    ∀ p ∈ ops, Gives Expr.WellFormed p.2 := by
  unfold Parser.operations at hread
  split at hread
  · rename_i op right c₂ hstep
    obtain ⟨⟨op', c₁⟩, -, hstep⟩ := Option.bind_eq_some_iff.mp hstep
    obtain ⟨⟨right', c₂'⟩, hright, heq⟩ := Option.map_eq_some_iff.mp hstep
    cases heq
    cases hread
    exact List.forall_mem_cons.mpr ⟨h.operand hright, h.operations rfl⟩
  · cases hread
    exact List.forall_mem_nil _

theorem operand_succ (h : ReadsFormed fuel) {r : Reading Expr}
    (hread : Parser.operand (fuel + 1) c = some (r, c')) : Gives Expr.WellFormed r := by
  unfold Parser.operand at hread
  split at hread
  · obtain ⟨⟨inner, c₂⟩, hinner, heq⟩ := Option.map_eq_some_iff.mp hread
    cases heq
    exact gives_applyPrefix (h.operand hinner)
  · obtain ⟨⟨target, c₁⟩, htarget, heq⟩ := Option.map_eq_some_iff.mp hread
    exact h.postfixes (h.chain htarget) heq

theorem postfixes_succ (h : ReadsFormed fuel) {target r : Reading Expr}
    (htarget : Gives Expr.WellFormed target)
    (hread : Parser.postfixes (fuel + 1) target c = (r, c')) : Gives Expr.WellFormed r := by
  unfold Parser.postfixes at hread
  split at hread
  · split at hread
    · exact h.postfixes (gives_applyPostfix htarget) hread
    · cases hread
      exact htarget
  · cases hread
    exact htarget

theorem chain_succ (h : ReadsFormed fuel) {r : Reading Expr}
    (hread : Parser.chain (fuel + 1) c = some (r, c')) : Gives Expr.WellFormed r := by
  unfold Parser.chain at hread
  obtain ⟨⟨head, c₁⟩, hhead, heq⟩ := Option.map_eq_some_iff.mp hread
  exact h.suffixes (h.primary hhead) heq

theorem suffixes_succ (h : ReadsFormed fuel) {pos : Position} {head r : Reading Expr}
    (hhead : Gives Expr.WellFormed head)
    (hread : Parser.suffixes (fuel + 1) pos head c = (r, c')) : Gives Expr.WellFormed r := by
  unfold Parser.suffixes at hread
  split at hread
  · rename_i longer c₁ hsuffix
    exact h.suffixes (h.suffix hhead hsuffix) hread
  · cases hread
    exact hhead

theorem suffix_succ (h : ReadsFormed fuel) {pos : Position} {head r : Reading Expr}
    (hhead : Gives Expr.WellFormed head)
    (hread : Parser.suffix (fuel + 1) pos head c = some (r, c')) : Gives Expr.WellFormed r := by
  unfold Parser.suffix at hread
  split at hread
  · obtain ⟨⟨args, c₂⟩, hargs, hread⟩ := Option.bind_eq_some_iff.mp hread
    obtain ⟨c₃, -, heq⟩ := Option.bind_eq_some_iff.mp hread
    cases heq
    exact hhead.map₂ (.all (h.expressions hargs)) fun _ _ hx hxs =>
      ⟨trivial, hx, Expr.throughoutList_iff.mpr hxs⟩
  · split at hread
    · cases hread
      exact hhead.map fun _ hx => ⟨trivial, hx⟩
    · cases hread
  · obtain ⟨⟨index, c₂⟩, hindex, hread⟩ := Option.bind_eq_some_iff.mp hread
    obtain ⟨c₃, -, heq⟩ := Option.bind_eq_some_iff.mp hread
    cases heq
    exact hhead.map₂ (h.assignment hindex) fun _ _ hx hy => ⟨trivial, hx, hy⟩
  · cases hread

theorem expressions_succ (h : ReadsFormed fuel) {rs : List (Reading Expr)}
    (hread : Parser.expressions (fuel + 1) c = some (rs, c')) :
    ∀ r ∈ rs, Gives Expr.WellFormed r := by
  unfold Parser.expressions at hread
  split at hread
  · rename_i first c₁ hfirst
    cases hread
    exact List.forall_mem_cons.mpr ⟨h.assignment hfirst, h.moreExpressions rfl⟩
  · cases hread
    exact List.forall_mem_nil _

theorem moreExpressions_succ (h : ReadsFormed fuel) {rs : List (Reading Expr)}
    (hread : Parser.moreExpressions (fuel + 1) c = (rs, c')) :
    ∀ r ∈ rs, Gives Expr.WellFormed r := by
  unfold Parser.moreExpressions at hread
  split at hread
  · rename_i first c₂ hfirst
    obtain ⟨c₁, -, hfirst⟩ := Option.bind_eq_some_iff.mp hfirst
    cases hread
    exact List.forall_mem_cons.mpr ⟨h.assignment hfirst, h.moreExpressions rfl⟩
  · cases hread
    exact List.forall_mem_nil _

theorem primary_succ (h : ReadsFormed fuel) {r : Reading Expr}
    (hread : Parser.primary (fuel + 1) c = some (r, c')) : Gives Expr.WellFormed r := by
  unfold Parser.primary at hread
  split at hread
  case h_6 => cases hread; exact .error
  case h_7 =>
    obtain ⟨phrase, -, heq⟩ := Option.map_eq_some_iff.mp hread
    cases heq
    exact .error
  case h_8 =>
    -- a function, with or without a name
    split at hread
    obtain ⟨⟨tail, c₃⟩, htail, heq⟩ := Option.map_eq_some_iff.mp hread
    cases heq
    exact (h.functionTail htail).map fun _ hbody => ⟨trivial, hbody⟩
  case h_9 =>
    obtain ⟨⟨items, c₂⟩, hitems, hread⟩ := Option.bind_eq_some_iff.mp hread
    obtain ⟨c₃, -, heq⟩ := Option.bind_eq_some_iff.mp hread
    cases heq
    exact (Gives.all (h.expressions hitems)).map fun _ hxs =>
      ⟨trivial, Expr.throughoutList_iff.mpr hxs⟩
  case h_10 =>
    obtain ⟨⟨entries, c₂⟩, hentries, hread⟩ := Option.bind_eq_some_iff.mp hread
    obtain ⟨c₃, -, heq⟩ := Option.bind_eq_some_iff.mp hread
    cases heq
    exact (Gives.all (h.properties hentries)).map fun _ hxs =>
      ⟨trivial, Expr.throughoutEntries_iff.mpr hxs⟩
  case h_11 =>
    obtain ⟨⟨inner, c₂⟩, hinner, hread⟩ := Option.bind_eq_some_iff.mp hread
    obtain ⟨c₃, -, heq⟩ := Option.bind_eq_some_iff.mp hread
    cases heq
    exact h.assignment hinner
  case h_12 =>
    split at hread
    · cases hread
    · cases hread
      exact .ok trivial
  case h_13 => cases hread
  all_goals
    cases hread
    exact .ok trivial

theorem properties_succ (h : ReadsFormed fuel) {rs : List (Reading (String × Expr))}
    (hread : Parser.properties (fuel + 1) c = some (rs, c')) :
    ∀ r ∈ rs, Gives (·.2.WellFormed) r := by
  unfold Parser.properties at hread
  split at hread
  · rename_i first c₁ hfirst
    cases hread
    exact List.forall_mem_cons.mpr ⟨h.property hfirst, h.moreProperties rfl⟩
  · cases hread
    exact List.forall_mem_nil _

theorem moreProperties_succ (h : ReadsFormed fuel) {rs : List (Reading (String × Expr))}
    (hread : Parser.moreProperties (fuel + 1) c = (rs, c')) :
    ∀ r ∈ rs, Gives (·.2.WellFormed) r := by
  unfold Parser.moreProperties at hread
  split at hread
  · rename_i first c₂ hfirst
    obtain ⟨c₁, -, hfirst⟩ := Option.bind_eq_some_iff.mp hfirst
    cases hread
    exact List.forall_mem_cons.mpr ⟨h.property hfirst, h.moreProperties rfl⟩
  · cases hread
    exact List.forall_mem_nil _

theorem property_succ (h : ReadsFormed fuel) {r : Reading (String × Expr)}
    (hread : Parser.property (fuel + 1) c = some (r, c')) : Gives (·.2.WellFormed) r := by
  unfold Parser.property at hread
  obtain ⟨⟨key, c₁⟩, -, hread⟩ := Option.bind_eq_some_iff.mp hread
  obtain ⟨c₂, -, hread⟩ := Option.bind_eq_some_iff.mp hread
  obtain ⟨⟨value, c₃⟩, hvalue, heq⟩ := Option.bind_eq_some_iff.mp hread
  cases heq
  exact (h.assignment hvalue).map fun _ hx => hx

/-! ### Statements -/

theorem functionTail_succ (h : ReadsFormed fuel) {pos : Position}
    {r : Reading (List String × List Stmt)}
    (hread : Parser.functionTail (fuel + 1) pos c = some (r, c')) :
    Gives (Stmt.WellFormedList ·.2) r := by
  unfold Parser.functionTail at hread
  obtain ⟨⟨bindings, c₁⟩, -, hread⟩ := Option.bind_eq_some_iff.mp hread
  obtain ⟨⟨body, c₂⟩, hbody, heq⟩ := Option.bind_eq_some_iff.mp hread
  cases heq
  exact (Gives.trivial _).map₂ (h.block hbody) fun _ _ _ hss => hss

theorem block_succ (h : ReadsFormed fuel) {r : Reading (List Stmt)}
    (hread : Parser.block (fuel + 1) c = some (r, c')) : Gives Stmt.WellFormedList r := by
  unfold Parser.block at hread
  obtain ⟨c₁, -, hread⟩ := Option.bind_eq_some_iff.mp hread
  obtain ⟨c₃, -, heq⟩ := Option.bind_eq_some_iff.mp hread
  cases heq
  exact h.statements rfl

theorem statements_succ (h : ReadsFormed fuel) {r : Reading (List Stmt)}
    (hread : Parser.statements (fuel + 1) c = (r, c')) : Gives Stmt.WellFormedList r := by
  unfold Parser.statements at hread
  split at hread
  · cases hread
    exact .ok trivial
  · rename_i first c₁ hfirst
    cases hread
    exact (h.statement hfirst).map₂ (h.statements rfl) fun s ss hs hss =>
      throughoutList_append.mpr ⟨Stmt.throughoutList_iff.mpr fun t ht =>
        hs t (Option.mem_toList.mp ht), hss⟩

theorem statement_succ (h : ReadsFormed fuel) {r : Reading (Option Stmt)}
    (hread : Parser.statement (fuel + 1) c = some (r, c')) :
    Gives (fun s => ∀ t ∈ s, t.WellFormed) r := by
  unfold Parser.statement at hread
  split at hread
  · rename_i phrase hspecial
    cases hread
    exact h.special hspecial
  · obtain ⟨⟨e, c₁⟩, he, heq⟩ := Option.bind_eq_some_iff.mp hread
    cases heq
    exact (h.assignment he).map_some fun _ hx => ⟨trivial, hx⟩

theorem parenthesized_succ (h : ReadsFormed fuel) {r : Reading Expr}
    (hread : Parser.parenthesized (fuel + 1) c = some (r, c')) : Gives Expr.WellFormed r := by
  unfold Parser.parenthesized at hread
  obtain ⟨c₁, -, hread⟩ := Option.bind_eq_some_iff.mp hread
  obtain ⟨⟨e, c₂⟩, he, hread⟩ := Option.bind_eq_some_iff.mp hread
  obtain ⟨c₃, -, heq⟩ := Option.bind_eq_some_iff.mp hread
  cases heq
  exact h.assignment he

theorem declarator_succ (h : ReadsFormed fuel) {r : Reading (Pattern × Option Expr)}
    (hread : Parser.declarator (fuel + 1) c = some (r, c')) :
    Gives (fun d => ∀ e ∈ d.2, e.WellFormed) r := by
  unfold Parser.declarator at hread
  obtain ⟨⟨target, c₁⟩, -, hread⟩ := Option.bind_eq_some_iff.mp hread
  dsimp only at hread
  split at hread
  · rename_i init c₃ hinit
    cases hread
    obtain ⟨c₂, -, hinit⟩ := Option.bind_eq_some_iff.mp hinit
    exact (Gives.trivial target).map₂ ((h.assignment hinit).map_some fun _ hx => hx)
      fun _ _ _ he => he
  · cases hread
    exact (Gives.trivial target).map fun _ _ _ he => (Option.not_mem_none _ he).elim

theorem moreDeclarators_succ (h : ReadsFormed fuel) {rs : List (Reading (Pattern × Option Expr))}
    (hread : Parser.moreDeclarators (fuel + 1) c = (rs, c')) :
    ∀ r ∈ rs, Gives (fun d => ∀ e ∈ d.2, e.WellFormed) r := by
  unfold Parser.moreDeclarators at hread
  split at hread
  · rename_i first c₂ hfirst
    obtain ⟨c₁, -, hfirst⟩ := Option.bind_eq_some_iff.mp hfirst
    cases hread
    exact List.forall_mem_cons.mpr ⟨h.declarator hfirst, h.moreDeclarators rfl⟩
  · cases hread
    exact List.forall_mem_nil _

theorem special_succ (h : ReadsFormed fuel) {r : Reading (Option Stmt)}
    (hread : Parser.special (fuel + 1) c = some (r, c')) :
    Gives (fun s => ∀ t ∈ s, t.WellFormed) r := by
  unfold Parser.special at hread
  split at hread
  · -- a block
    obtain ⟨⟨body, c₁⟩, hbody, heq⟩ := Option.map_eq_some_iff.mp hread
    cases heq
    exact (h.block hbody).map_some fun _ hss => ⟨trivial, hss⟩
  · -- an empty statement
    cases hread
    exact .ok fun _ ht => (Option.not_mem_none _ ht).elim
  · -- a function
    obtain ⟨⟨name, c₂⟩, -, hread⟩ := Option.bind_eq_some_iff.mp hread
    obtain ⟨⟨tail, c₃⟩, htail, heq⟩ := Option.bind_eq_some_iff.mp hread
    cases heq
    exact (h.functionTail htail).map_some fun _ hbody => ⟨trivial, hbody⟩
  · -- a conditional, with an alternative or without one
    obtain ⟨⟨test, c₂⟩, htest, hread⟩ := Option.bind_eq_some_iff.mp hread
    obtain ⟨⟨consequent, c₃⟩, hconsequent, hread⟩ := Option.bind_eq_some_iff.mp hread
    dsimp only at hread
    split at hread
    · rename_i alternate c₅ halternate
      cases hread
      obtain ⟨c₄, -, halternate⟩ := Option.bind_eq_some_iff.mp halternate
      intro s hs
      obtain ⟨x, hx, hs⟩ := exists_of_bind hs
      obtain ⟨yes, hyes, hs⟩ := exists_of_bind hs
      obtain ⟨no, hno, hs⟩ := exists_of_bind hs
      cases hs
      rintro _ ⟨⟩
      exact ⟨trivial, h.parenthesized htest x hx,
        wellFormed_asBody (h.statement hconsequent yes hyes),
        wellFormed_asBody (h.statement halternate no hno)⟩
    · cases hread
      exact (h.parenthesized htest).map₂ (h.statement hconsequent) fun _ _ hx hyes t ht =>
        Option.some.inj ht ▸ ⟨trivial, hx, wellFormed_asBody hyes⟩
  · -- a loop
    obtain ⟨⟨test, c₂⟩, htest, hread⟩ := Option.bind_eq_some_iff.mp hread
    obtain ⟨⟨body, c₃⟩, hbody, heq⟩ := Option.bind_eq_some_iff.mp hread
    cases heq
    exact (h.parenthesized htest).map₂ (h.statement hbody) fun _ _ hx hs t ht =>
      Option.some.inj ht ▸ ⟨trivial, hx, wellFormed_asBody hs⟩
  · obtain ⟨c₂, -, hread⟩ := Option.bind_eq_some_iff.mp hread
    obtain ⟨phrase, -, heq⟩ := Option.bind_eq_some_iff.mp hread
    cases heq
    exact .error
  · obtain ⟨phrase, -, hread⟩ := Option.bind_eq_some_iff.mp hread
    obtain ⟨c₂, -, hread⟩ := Option.bind_eq_some_iff.mp hread
    obtain ⟨c₃, -, heq⟩ := Option.bind_eq_some_iff.mp hread
    cases heq
    exact .error
  · obtain ⟨c₂, -, hread⟩ := Option.bind_eq_some_iff.mp hread
    obtain ⟨c₃, -, heq⟩ := Option.bind_eq_some_iff.mp hread
    cases heq
    exact .error
  · obtain ⟨c₂, -, heq⟩ := Option.bind_eq_some_iff.mp hread
    cases heq
    exact .error
  · obtain ⟨phrase, -, heq⟩ := Option.bind_eq_some_iff.mp hread
    cases heq
    exact .error
  · cases hread
    exact .error
  · -- leaving a labelled statement
    split at hread
    · cases hread
      exact .ok fun _ ht => Option.some.inj ht ▸ trivial
    · cases hread
      exact .ok fun _ ht => Option.some.inj ht ▸ trivial
  · -- a return
    split at hread
    · rename_i value c₂ hvalue
      cases hread
      exact (h.assignment hvalue).map_some fun _ hx => ⟨trivial, hx⟩
    · cases hread
      exact .ok fun _ ht => Option.some.inj ht ▸ trivial
  · split at hread
    · -- a declaration
      obtain ⟨⟨first, c₂⟩, hfirst, hread⟩ := Option.bind_eq_some_iff.mp hread
      cases hread
      intro s hs
      obtain ⟨ds, hds, rfl⟩ := reading_map_eq_ok hs
      rintro _ ⟨⟩
      refine ⟨?_, Stmt.throughoutDeclarators_iff.mpr (Gives.all (List.forall_mem_cons.mpr
        ⟨h.declarator hfirst, h.moreDeclarators rfl⟩) ds hds)⟩
      obtain ⟨d, ds, -, -, rfl⟩ := all_cons_eq_ok.mp hds
      exact List.cons_ne_nil d ds
    · split at hread
      · cases hread
      · -- a label
        obtain ⟨c₂, -, hread⟩ := Option.bind_eq_some_iff.mp hread
        obtain ⟨⟨body, c₃⟩, hbody, heq⟩ := Option.bind_eq_some_iff.mp hread
        cases heq
        exact (h.statement hbody).map_some fun _ hs => ⟨trivial, wellFormed_asBody hs⟩
  · cases hread

end ReadsFormed

/-- Whatever the fuel, what is read is formed. -/
theorem readsFormed (fuel : Nat) : ReadsFormed fuel := by
  induction fuel with
  | zero =>
      constructor
      case conditional | postfixes | suffixes =>
        intros
        rename_i hfirst h
        cases h
        exact hfirst
      case operations | moreExpressions | moreProperties | moreDeclarators =>
        intro _ _ _ h
        cases h
        exact List.forall_mem_nil _
      case expressions | properties =>
        intro _ _ _ h
        cases h
      case statements =>
        intro _ _ _ h
        cases h
        exact .ok trivial
      all_goals
        intros
        rename_i h
        cases h
  | succ fuel ih =>
      exact {
        assignment := ih.assignment_succ
        conditional := ih.conditional_succ
        operations := ih.operations_succ
        operand := ih.operand_succ
        postfixes := ih.postfixes_succ
        chain := ih.chain_succ
        suffixes := ih.suffixes_succ
        suffix := ih.suffix_succ
        expressions := ih.expressions_succ
        moreExpressions := ih.moreExpressions_succ
        primary := ih.primary_succ
        properties := ih.properties_succ
        moreProperties := ih.moreProperties_succ
        property := ih.property_succ
        functionTail := ih.functionTail_succ
        block := ih.block_succ
        statements := ih.statements_succ
        statement := ih.statement_succ
        special := ih.special_succ
        parenthesized := ih.parenthesized_succ
        declarator := ih.declarator_succ
        moreDeclarators := ih.moreDeclarators_succ }

/-- Whatever text a program comes from, it is formed. -/
theorem wellFormed_of_parse {text : String} {p : Program} (h : parse text = .ok p) :
    Stmt.WellFormedList p := by
  unfold parse at h
  dsimp only at h
  split at h
  · exact (readsFormed _).statements rfl p h
  · cases h

end TraceLoom.Script
